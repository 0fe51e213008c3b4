/-
Strings of a JSON text: in double quotes, with a backslash before a quote and a backslash, short escapes for five control
characters, and four hexadecimal digits for the others. All other characters stand for themselves.
-/
namespace ByNeed.Json

def hexDigit (n : Nat) : Char := Nat.digitChar n

/-- one character inside quotes -/
def escape (c : Char) : List Char :=
  match c with
  | '"' => ['\\', '"']
  | '\\' => ['\\', '\\']
  | '\x08' => ['\\', 'b']
  | '\x0c' => ['\\', 'f']
  | '\n' => ['\\', 'n']
  | '\r' => ['\\', 'r']
  | '\t' => ['\\', 't']
  | c => if c.toNat < 0x20 then ['\\', 'u', '0', '0', hexDigit (c.toNat / 16), hexDigit (c.toNat % 16)] else [c]

def quoted (cs : List Char) : List Char := '"' :: (cs.flatMap escape ++ ['"'])

def hexValue? (c : Char) : Option Nat :=
  if c.isDigit then some (c.toNat - '0'.toNat)
  else if 'a' ≤ c ∧ c ≤ 'f' then some (c.toNat - 'a'.toNat + 10)
  else if 'A' ≤ c ∧ c ≤ 'F' then some (c.toNat - 'A'.toNat + 10)
  else none

/-- the character of a code; half of a pair is none -/
def charOf? (code : Nat) : Option Char := if h : code.isValidChar then some (Char.ofNatAux code h) else none

/-- the character of four hexadecimal digits -/
def escaped? (a b c d : Char) : Option Char := do
  charOf? ((((← hexValue? a) * 16 + (← hexValue? b)) * 16 + (← hexValue? c)) * 16 + (← hexValue? d))

/-- the character that a letter after a backslash stands for -/
def shortEscape? : Char → Option Char
  | '"' => some '"'
  | '\\' => some '\\'
  | '/' => some '/'
  | 'b' => some '\x08'
  | 'f' => some '\x0c'
  | 'n' => some '\n'
  | 'r' => some '\r'
  | 't' => some '\t'
  | _ => none

/-- reads up to the closing quote, and gives the rest -/
def unquoted? : List Char → Option (List Char × List Char)
  | [] => none
  | '"' :: rest => some ([], rest)
  | '\\' :: 'u' :: a :: b :: c :: d :: rest => do
    let e ← escaped? a b c d
    let (cs, rest) ← unquoted? rest
    return (e :: cs, rest)
  | '\\' :: c :: rest => do
    let e ← shortEscape? c
    let (cs, rest) ← unquoted? rest
    return (e :: cs, rest)
  | c :: rest => do
    if c == '\\' || c.toNat < 0x20 then none
    let (cs, rest) ← unquoted? rest
    return (c :: cs, rest)

end ByNeed.Json
