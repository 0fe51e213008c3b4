/-
Values that can be duplicated, and their written form.

Absent options, the unit and numbers that are not finite are all written as null, and a present option as its content
alone. Keys of maps have to be written as strings: integers, booleans and present options of such keys can be, compound
keys cannot.
-/
import ByNeed.Json

namespace ByNeed

/-- a value of the types that can be duplicated -/
inductive Datum where
  | unit
  | bool (b : Bool)
  | integer (n : Int)
  | char (c : Char)
  | string (s : String)
  /-- a binary number by its bit pattern -/
  | float (format : Binary.Format) (bits : Nat)
  | absent
  | present (content : Datum)
  | list (items : List Datum)
  | tuple (parts : List Datum)
  | record (fields : List (String × Datum))
  /-- a variant without payload -/
  | bare (variant : String)
  | tagged (variant : String) (payload : Datum)
  /-- entries in ascending order of their keys -/
  | map (entries : List (Datum × Datum))
  /-- a mutable cell; while it is borrowed its content cannot be read -/
  | cell (borrowed : Bool) (content : Datum)
deriving Repr, Inhabited

namespace Datum

/-! ## Maps -/

mutual
/-- order of keys: integers and characters by value, strings by characters, false before true, absent before present,
compound values by their first difference -/
def order : Datum → Datum → Ordering
  | bool a, bool b => compare a.toNat b.toNat
  | integer a, integer b => compare a b
  | char a, char b => compare a.toNat b.toNat
  | string a, string b => compare a b
  | absent, present _ => .lt
  | present _, absent => .gt
  | present a, present b => order a b
  | list as, list bs => orderParts as bs
  | tuple as, tuple bs => orderParts as bs
  | record as, record bs => orderFields as bs
  | map as, map bs => orderEntries as bs
  | cell _ a, cell _ b => order a b
  | _, _ => .eq

def orderParts : List Datum → List Datum → Ordering
  | [], [] => .eq
  | [], _ :: _ => .lt
  | _ :: _, [] => .gt
  | a :: as, b :: bs => (order a b).then (orderParts as bs)

def orderFields : List (String × Datum) → List (String × Datum) → Ordering
  | (_, a) :: as, (_, b) :: bs => (order a b).then (orderFields as bs)
  | _, _ => .eq

def orderEntries : List (Datum × Datum) → List (Datum × Datum) → Ordering
  | [], [] => .eq
  | [], _ :: _ => .lt
  | _ :: _, [] => .gt
  | (k, a) :: as, (l, b) :: bs => ((order k l).then (order a b)).then (orderEntries as bs)
end

/-- puts an entry in its place; an entry with the same key is replaced -/
def insertEntry (key value : Datum) : List (Datum × Datum) → List (Datum × Datum)
  | [] => [(key, value)]
  | (k, v) :: rest =>
    match order k key with
    | .lt => (k, v) :: insertEntry key value rest
    | .eq => (key, value) :: rest
    | .gt => (key, value) :: (k, v) :: rest

/-- the map of some entries; the last one of a key counts -/
def mapOf (entries : List (Datum × Datum)) : Datum :=
  map (entries.foldl (fun m e => insertEntry e.1 e.2 m) [])

/-! ## Cells -/

/-- puts an item behind the others of a list in a cell; any other value stays -/
def push (item : Datum) : Datum → Datum
  | cell borrowed (list items) => cell borrowed (list (items ++ [item]))
  | v => v

/-! ## Writing -/

inductive Refusal where
  | keyNotText
  | borrowed
deriving DecidableEq, Repr

def Refusal.message : Refusal → String
  | keyNotText => "key must be a string"
  | borrowed => "already mutably borrowed"

def keyText : Datum → Except Refusal String
  | string s => .ok s
  | char c => .ok (String.singleton c)
  | integer n => .ok (toString n)
  | bool b => .ok (if b then "true" else "false")
  | bare variant => .ok variant
  | present content => keyText content
  | _ => .error .keyNotText

/-- a binary number, or null if it is not finite -/
def floatForm (format : Binary.Format) (bits : Nat) : Json :=
  match Json.Number.ofBits? format bits with
  | some n => .number n
  | none => .null

mutual
def toJson : Datum → Except Refusal Json
  | unit => .ok .null
  | bool b => .ok (.bool b)
  | integer n => .ok (.number (.ofInt n))
  | char c => .ok (.string (String.singleton c))
  | string s => .ok (.string s)
  | float format bits => .ok (floatForm format bits)
  | absent => .ok .null
  | present content => toJson content
  | list items => .array <$> itemsToJson items
  | tuple parts => .array <$> itemsToJson parts
  | record fields => .object <$> fieldsToJson fields
  | bare variant => .ok (.string variant)
  | tagged variant payload => do return .object [(variant, ← toJson payload)]
  | map entries => .object <$> entriesToJson entries
  | cell borrowed content => if borrowed then .error .borrowed else toJson content

def itemsToJson : List Datum → Except Refusal (List Json)
  | [] => .ok []
  | v :: rest => do return (← toJson v) :: (← itemsToJson rest)

/-- fields under their names -/
def fieldsToJson : List (String × Datum) → Except Refusal (List (String × Json))
  | [] => .ok []
  | (name, v) :: rest => do return (name, ← toJson v) :: (← fieldsToJson rest)

/-- entries under the texts of their keys -/
def entriesToJson : List (Datum × Datum) → Except Refusal (List (String × Json))
  | [] => .ok []
  | (key, v) :: rest => do
    let text ← keyText key
    return (text, ← toJson v) :: (← entriesToJson rest)
end

end Datum

end ByNeed
