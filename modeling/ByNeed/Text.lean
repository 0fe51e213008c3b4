/-
Texts: how they are read and how they are written.

- Reading: white space, which is trimmed off, and decimal numerals of bounded integers.
- Writing: literals in quotes that can be read back, and texts as they are shown in messages.
-/
import ByNeed.Text.Unprintable

namespace ByNeed.Text

/-! ## White space -/

/-- white space in the sense of Unicode -/
def isBlank (c : Char) : Bool :=
  let n := c.toNat
  (0x9 ≤ n && n ≤ 0xd) || n == 0x20 || n == 0x85 || n == 0xa0 || n == 0x1680 || (0x2000 ≤ n && n ≤ 0x200a) ||
    n == 0x2028 || n == 0x2029 || n == 0x202f || n == 0x205f || n == 0x3000

/-- without the white space on both sides -/
def trim (cs : List Char) : List Char := ((cs.dropWhile isBlank).reverse.dropWhile isBlank).reverse

/-- ASCII letters in lower case, everything else as it is -/
def lowerAscii (cs : List Char) : List Char := cs.map Char.toLower

/-!
## Decimal numerals

An optional sign, then one or more ASCII digits; leading zeros do not count, and a value out of range is no numeral.
-/

/-- the value of a row of ASCII digits; there must be one -/
def digits? (cs : List Char) : Option Nat :=
  if !cs.isEmpty && cs.all Char.isDigit then some (cs.foldl (fun n c => n * 10 + (c.toNat - '0'.toNat)) 0) else none

/-- a value below `bound`, with an optional plus sign -/
def natural? (bound : Nat) (cs : List Char) : Option Nat :=
  let digits := match cs with
    | '+' :: cs => cs
    | cs => cs
  (digits? digits).filter (· < bound)

/-- a value from `-bound` up to below `bound`, with an optional sign -/
def integer? (bound : Nat) (cs : List Char) : Option Int :=
  match cs with
  | '-' :: cs => ((digits? cs).filter (· ≤ bound)).map fun n => -(n : Int)
  | cs => (natural? bound cs).map fun n => (n : Int)

/-- machine sizes have 64 bits -/
def size? (cs : List Char) : Option Nat := natural? (Nat.pow 2 64) cs

/-- exit codes have 32 bits -/
def code? (cs : List Char) : Option Int32 := (integer? (Nat.pow 2 31) cs).map Int32.ofInt

/-!
## Literals

Control characters are written as a backslash and their code in octal, without padding; a backslash and the delimiting
quote are written after a backslash; everything else stands for itself.
-/

def isControl (c : Char) : Bool := c.toNat < 0x20 || c.toNat == 0x7f

/-- one character inside a literal delimited by `quote` -/
def escape (quote c : Char) : List Char :=
  if isControl c then '\\' :: Nat.toDigits 8 c.toNat
  else if c == '\\' || c == quote then ['\\', c]
  else [c]

/-- characters as a literal delimited by `quote` -/
def quoteWith (quote : Char) (cs : List Char) : List Char := quote :: (cs.flatMap (escape quote) ++ [quote])

def quoteString (s : String) : String := String.ofList (quoteWith '"' s.toList)

def quoteChar (c : Char) : String := String.ofList (quoteWith '\'' [c])

/-!
## Texts in messages

They are shown in double quotes, with the quote, the backslash and a few control characters escaped by name, and
everything else without a printed form by its code point.
-/

/-- one character as it is shown -/
def showChar (c : Char) : List Char :=
  match c with
  | '\x00' => ['\\', '0']
  | '\t' => ['\\', 't']
  | '\n' => ['\\', 'n']
  | '\r' => ['\\', 'r']
  | '"' => ['\\', '"']
  | '\\' => ['\\', '\\']
  | c => if isUnprintable c then '\\' :: 'u' :: '\x7b' :: (Nat.toDigits 16 c.toNat ++ ['\x7d']) else [c]

/-- a text as it is shown -/
def showString (s : String) : String := String.ofList ('"' :: (s.toList.flatMap showChar ++ ['"']))

end ByNeed.Text
