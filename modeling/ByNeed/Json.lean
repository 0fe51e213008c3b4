/-
JSON values and their compact text, without blanks.

`chars` writes a value and `parse` reads one. Reading keeps count of open brackets: one more than `depthLimit` of them is
refused at the place where it stands, whatever follows.
-/
import ByNeed.Json.Number
import ByNeed.Json.Quoted

namespace ByNeed

/-- a value; members stand in the order of the text -/
inductive Json where
  | null
  | bool (b : Bool)
  | number (n : Json.Number)
  | string (s : String)
  | array (items : List Json)
  | object (members : List (String × Json))
deriving Repr, Inhabited

namespace Json

/-! ## Writing -/

mutual
def chars : Json → List Char
  | null => ['n', 'u', 'l', 'l']
  | bool true => ['t', 'r', 'u', 'e']
  | bool false => ['f', 'a', 'l', 's', 'e']
  | number n => n.chars
  | string s => quoted s.toList
  | array items => '[' :: (itemChars items ++ [']'])
  | object members => '\x7b' :: (memberChars members ++ ['\x7d'])

def itemChars : List Json → List Char
  | [] => []
  | [j] => j.chars
  | j :: k :: rest => j.chars ++ ',' :: itemChars (k :: rest)

def memberChars : List (String × Json) → List Char
  | [] => []
  | [(key, j)] => quoted key.toList ++ ':' :: j.chars
  | (key, j) :: m :: rest => quoted key.toList ++ ':' :: (j.chars ++ ',' :: memberChars (m :: rest))
end

def bytes (cs : List Char) : Nat := cs.foldl (fun n c => n + c.utf8Size) 0

/-- bytes of the text of a value -/
def width (j : Json) : Nat := bytes j.chars

/-! ## Reading -/

/-- why a text is refused, and how many bytes of it were left -/
inductive Fault where
  | tooDeep (left : Nat)
  | malformed (left : Nat)
deriving DecidableEq, Repr

/-- values with commas between them, up to the closing bracket; `fuel` bounds how many there are -/
def separated {α : Type} (value : List Char → Except Fault (α × List Char)) (close : Char) :
    Nat → List Char → Except Fault (List α × List Char)
  | 0, cs => .error (.malformed (bytes cs))
  | fuel + 1, cs => do
    let (a, cs) ← value cs
    match cs with
    | [] => .error (.malformed 0)
    | c :: rest =>
      if c = close then return ([a], rest)
      else if c = ',' then
        let (as, rest) ← separated value close fuel rest
        return (a :: as, rest)
      else .error (.malformed (bytes cs))

/-- what stands between brackets, after the opening one -/
def bracketed {α : Type} (value : List Char → Except Fault (α × List Char)) (close : Char) (cs : List Char) :
    Except Fault (List α × List Char) :=
  match cs with
  | [] => .error (.malformed 0)
  | c :: rest => if c = close then .ok ([], rest) else separated value close cs.length cs

/-- a key, a colon and a value -/
def member (value : List Char → Except Fault (Json × List Char)) (cs : List Char) :
    Except Fault ((String × Json) × List Char) := do
  match cs with
  | '"' :: rest =>
    match unquoted? rest with
    | some (key, ':' :: rest) =>
      let (j, rest) ← value rest
      return ((String.ofList key, j), rest)
    | _ => .error (.malformed (bytes cs))
  | _ => .error (.malformed (bytes cs))

/-- a value without brackets -/
def scalar (cs : List Char) : Except Fault (Json × List Char) :=
  match cs with
  | 'n' :: 'u' :: 'l' :: 'l' :: rest => .ok (.null, rest)
  | 't' :: 'r' :: 'u' :: 'e' :: rest => .ok (.bool true, rest)
  | 'f' :: 'a' :: 'l' :: 's' :: 'e' :: rest => .ok (.bool false, rest)
  | '"' :: rest =>
    match unquoted? rest with
    | some (s, rest) => .ok (.string (String.ofList s), rest)
    | none => .error (.malformed (bytes cs))
  | cs =>
    match Number.read? cs with
    | some (n, rest) => .ok (.number n, rest)
    | none => .error (.malformed (bytes cs))

/-- a value at the start of a text, and the rest; `depth` more brackets may be opened -/
def value : (depth : Nat) → List Char → Except Fault (Json × List Char)
  | 0, cs =>
    match cs with
    | '[' :: _ | '\x7b' :: _ => .error (.tooDeep (bytes cs))
    | cs => scalar cs
  | depth + 1, cs =>
    match cs with
    | '[' :: rest => do
      let (items, rest) ← bracketed (value depth) ']' rest
      return (.array items, rest)
    | '\x7b' :: rest => do
      let (members, rest) ← bracketed (member (value depth)) '\x7d' rest
      return (.object members, rest)
    | cs => scalar cs

/-- brackets that may be open at once -/
def depthLimit : Nat := 127

def parse (cs : List Char) : Except Fault Json := do
  match ← value depthLimit cs with
  | (j, []) => return j
  | (_, rest) => .error (.malformed (bytes rest))

end Json

end ByNeed
