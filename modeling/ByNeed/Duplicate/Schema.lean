/-
Types of values that can be duplicated, and reading a value of a type back from its written form.

Null is read as the absent option wherever an option is wanted, so a present option whose content is written as null
comes back absent. A binary number is never read from null.
-/
import ByNeed.Duplicate.Datum

namespace ByNeed

/-- a type of values -/
inductive Schema where
  | unit
  | bool
  /-- integers from `low` to `high` -/
  | integer (low high : Int)
  | char
  | string
  | float (format : Binary.Format)
  | option (content : Schema)
  | list (item : Schema)
  | tuple (parts : List Schema)
  | record (fields : List (String × Schema))
  /-- variants without and with a payload -/
  | choice (bare : List String) (tagged : List (String × Schema))
  | map (key value : Schema)
  | cell (content : Schema)
  /-- any value that can be written -/
  | any
deriving Repr, Inhabited

namespace Schema

def signed (bits : Nat) : Schema :=
  let half := Nat.pow 2 (bits - 1)
  integer (-half) (half - 1)

def unsigned (bits : Nat) : Schema := integer 0 (Nat.pow 2 bits - 1)

/-- Records that hold at most one record of their own type each, up to `depth` inside each other. Beyond the depth that
can be read no deeper type is needed. -/
def chain (name : String) : (depth : Nat) → Schema
  | 0 => record [(name, option unit)]
  | depth + 1 => record [(name, option (chain name depth))]

/-- why a written form is not one of a value, and how many bytes come before its end -/
inductive Mismatch where
  /-- null where a binary number is wanted -/
  | nullNumber (format : Binary.Format) (column : Nat)
  | outOfRange (column : Nat)
  | unexpected (column : Nat)
deriving DecidableEq, Repr

def readKey : Schema → String → Option Datum
  | string, s => some (.string s)
  | char, s =>
    match s.toList with
    | [c] => some (.char c)
    | _ => none
  | integer low high, s =>
    match Json.Number.read? s.toList with
    | some (n, []) => (n.int?.filter fun i => low ≤ i ∧ i ≤ high).map .integer
    | _ => none
  | bool, s => if s = "true" then some (.bool true) else if s = "false" then some (.bool false) else none
  | choice bare _, s => if s ∈ bare then some (.bare s) else none
  | option content, s => (readKey content s).map .present
  | _, _ => none

/-- items one after the other; a comma stands between them -/
def readItems (read : Nat → Json → Except Mismatch Datum) : Nat → List Json → Except Mismatch (List Datum)
  | _, [] => .ok []
  | start, j :: rest => do return (← read start j) :: (← readItems read (start + j.width + 1) rest)

/-- bytes of a key and its colon -/
def keyWidth (key : String) : Nat := Json.bytes (Json.quoted key.toList) + 1

def readEntries (key : String → Option Datum) (read : Nat → Json → Except Mismatch Datum) :
    Nat → List (String × Json) → Except Mismatch (List (Datum × Datum))
  | _, [] => .ok []
  | start, (text, j) :: rest => do
    let start := start + keyWidth text
    match key text with
    | none => .error (.unexpected (start - 1))
    | some k =>
      let v ← read start j
      return (k, v) :: (← readEntries key read (start + j.width + 1) rest)

/-- a number without point and exponent is an integer if it has at most 64 bits, any other a double -/
def readNumber (n : Json.Number) : Option Datum :=
  match n.int?.filter fun i : Int => -Nat.pow 2 63 ≤ i ∧ i < Nat.pow 2 64 with
  | some i => some (.integer i)
  | none => (n.bits? .double).map (.float .double)

mutual
/-- a value of no type in particular; members of objects are entries of a map -/
def readAny : Json → Option Datum
  | .null => some .unit
  | .bool b => some (.bool b)
  | .number n => readNumber n
  | .string s => some (.string s)
  | .array items => .list <$> readAnyItems items
  | .object members => Datum.mapOf <$> readAnyMembers members

def readAnyItems : List Json → Option (List Datum)
  | [] => some []
  | j :: rest => do return (← readAny j) :: (← readAnyItems rest)

def readAnyMembers : List (String × Json) → Option (List (Datum × Datum))
  | [] => some []
  | (key, j) :: rest => do return (.string key, ← readAny j) :: (← readAnyMembers rest)
end

def readFloat (format : Binary.Format) (start : Nat) : Json → Except Mismatch Datum
  | .number n =>
    (n.bits? format).elim (.error (.outOfRange (start + (Json.number n).width))) fun bits => .ok (.float format bits)
  | .null => .error (.nullNumber format (start + Json.null.width))
  | j => .error (.unexpected (start + j.width))

mutual
/-- a value of a type from its written form, which starts after `start` bytes of the text -/
def read : Schema → Nat → Json → Except Mismatch Datum
  | unit, _, .null => .ok .unit
  | bool, _, .bool b => .ok (.bool b)
  | integer low high, start, .number n =>
    match n.int?.filter fun i => low ≤ i ∧ i ≤ high with
    | some i => .ok (.integer i)
    | none => .error (.unexpected (start + (Json.number n).width))
  | char, start, .string s =>
    match s.toList with
    | [c] => .ok (.char c)
    | _ => .error (.unexpected (start + (Json.string s).width))
  | string, _, .string s => .ok (.string s)
  | float format, start, j => readFloat format start j
  | option _, _, .null => .ok .absent
  | option content, start, j => .present <$> read content start j
  | list item, start, .array items => .list <$> readItems (read item) (start + 1) items
  | tuple parts, start, .array items => .tuple <$> readParts parts (start + 1) items
  | record fields, start, .object members => .record <$> readFields fields (start + 1) members
  | choice bare _, start, .string s =>
    if s ∈ bare then .ok (.bare s) else .error (.unexpected (start + (Json.string s).width))
  | choice _ tagged, start, .object [(variant, j)] => readPayload tagged (start + 1) variant j
  | map key item, start, .object members => Datum.mapOf <$> readEntries key.readKey (read item) (start + 1) members
  | cell content, start, j => .cell false <$> read content start j
  | any, start, j =>
    match readAny j with
    | some v => .ok v
    | none => .error (.outOfRange (start + j.width))
  | _, start, j => .error (.unexpected (start + j.width))

/-- the parts of a tuple; there are as many as there are types -/
def readParts : List Schema → Nat → List Json → Except Mismatch (List Datum)
  | [], _, [] => .ok []
  | part :: parts, start, j :: rest => do
    let v ← read part start j
    return v :: (← readParts parts (start + j.width + 1) rest)
  | _, start, _ => .error (.unexpected start)

/-- the fields of a record, in their order -/
def readFields : List (String × Schema) → Nat → List (String × Json) → Except Mismatch (List (String × Datum))
  | [], _, [] => .ok []
  | (name, field) :: fields, start, (key, j) :: rest => do
    let start := start + keyWidth key
    if name = key then
      let v ← read field start j
      return (name, v) :: (← readFields fields (start + j.width + 1) rest)
    else .error (.unexpected (start - 1))
  | _, start, _ => .error (.unexpected start)

/-- the payload of the variant of that name -/
def readPayload : List (String × Schema) → Nat → String → Json → Except Mismatch Datum
  | [], start, variant, _ => .error (.unexpected (start + keyWidth variant - 1))
  | (name, payload) :: rest, start, variant, j =>
    if name = variant then .tagged name <$> read payload (start + keyWidth variant) j
    else readPayload rest start variant j
end

end Schema

end ByNeed
