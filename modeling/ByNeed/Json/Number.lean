/-
Numbers of a JSON text, as they are written: all digits as one natural number, how many of them stand after the point,
and the exponent if there is one.
-/
import ByNeed.Binary.Shortest
import ByNeed.Text

namespace ByNeed.Json

/-- a number as it is written -/
structure Number where
  negative : Bool
  digits : Nat
  /-- digits after the point -/
  places : Nat
  exponent : Option Int
deriving DecidableEq, Repr

namespace Number

/-! ## Text -/

/-- a row of at least `width` digits -/
def padded (width n : Nat) : List Char :=
  let row := Nat.toDigits 10 n
  List.replicate (width - row.length) '0' ++ row

/-- the digits after the point, with it; no point without digits -/
def pointChars (fraction : List Char) : List Char := if fraction.isEmpty then [] else '.' :: fraction

def exponentChars : Option Int → List Char
  | none => []
  | some e => 'e' :: (toString e).toList

def chars (n : Number) : List Char :=
  let row := padded (n.places + 1) n.digits
  let whole := row.length - n.places
  let sign := if n.negative then ['-'] else []
  sign ++ (row.take whole ++ (pointChars (row.drop whole) ++ exponentChars n.exponent))

/-- a minus sign, if there is one -/
def sign : List Char → Bool × List Char
  | '-' :: cs => (true, cs)
  | cs => (false, cs)

/-- a row of digits at the start of a text, and the rest -/
def row? (cs : List Char) : Option (List Char × List Char) :=
  match cs.span Char.isDigit with
  | ([], _) => none
  | (row, rest) => some (row, rest)

/-- a whole part has no zero in front of other digits -/
def whole? (cs : List Char) : Option (List Char × List Char) :=
  match row? cs with
  | some ('0' :: _ :: _, _) => none
  | answer => answer

/-- the digits after the point, if there is one -/
def fraction? : List Char → Option (List Char × List Char)
  | '.' :: cs => row? cs
  | cs => some ([], cs)

/-- an exponent, if there is one -/
def exponent? : List Char → Option (Option Int × List Char)
  | 'e' :: '-' :: cs => do
    let (row, rest) ← row? cs
    return (some (-(← Text.digits? row : Nat)), rest)
  | 'e' :: cs => do
    let (row, rest) ← row? cs
    return (some (← Text.digits? row : Nat), rest)
  | cs => some (none, cs)

/-- a number at the start of a text, and the rest -/
def read? (cs : List Char) : Option (Number × List Char) := do
  let (negative, cs) := sign cs
  let (whole, cs) ← whole? cs
  let (fraction, cs) ← fraction? cs
  let (exponent, cs) ← exponent? cs
  return (⟨negative, ← Text.digits? (whole ++ fraction), fraction.length, exponent⟩, cs)

/-! ## Integers -/

def ofInt (n : Int) : Number := ⟨n < 0, n.natAbs, 0, none⟩

/-- a number without point and exponent is an integer -/
def int? (n : Number) : Option Int :=
  if n.places == 0 && n.exponent.isNone then some (if n.negative then -n.digits else n.digits) else none

/-! ## Binary numbers -/

/-- where positional notation ends, as orders of magnitude -/
structure Layout where
  /-- greatest number of digits before the point -/
  widest : Int
  /-- zeros after the point stay below this number -/
  zeros : Int

def layout : Binary.Format → Layout
  | .single => ⟨13, 6⟩
  | .double => ⟨16, 5⟩

/-- a positive decimal: positional with at least one place after the point, or one digit, the others and an exponent -/
def ofDecimal (l : Layout) (negative : Bool) (d : Binary.Decimal) : Number :=
  let count : Int := Binary.digitCount d.digits
  let order := count + d.exponent
  if count ≤ order ∧ order ≤ l.widest then ⟨negative, d.digits * Nat.pow 10 (d.exponent.toNat + 1), 1, none⟩
  else if -l.zeros < order ∧ order ≤ l.widest then ⟨negative, d.digits, (-d.exponent).toNat, none⟩
  else ⟨negative, d.digits, (count - 1).toNat, some (order - 1)⟩

/-- a finite binary number by its shortest decimal; anything else has no number -/
def ofBits? (f : Binary.Format) (bits : Nat) : Option Number :=
  let p := Binary.Parts.ofBits f bits
  if !p.isFinite f then none
  else if p.magnitude f == 0 then some ⟨p.negative, 0, 1, none⟩
  else some (ofDecimal (layout f) p.negative (Binary.shortest f p))

/-- the greatest power of ten among the doubles -/
def greatestPower : Nat := 308

/-- divides a double by a power of ten, by the greatest one as long as the power lies beyond it -/
def divideByPower (a power : Nat) : Option Nat :=
  if power ≤ greatestPower then do Binary.div .double a (← Binary.ofNat .double (Nat.pow 10 power))
  else do
    let a ← Binary.div .double a (← Binary.ofNat .double (Nat.pow 10 greatestPower))
    divideByPower a (power - greatestPower)
termination_by power
decreasing_by simp only [greatestPower] at *; omega

def multiplyByPower (a power : Nat) : Option Nat :=
  if power ≤ greatestPower then do Binary.mul .double a (← Binary.ofNat .double (Nat.pow 10 power))
  else if a == 0 then some 0 else none

/-- The magnitude a number is read as, a double: its digits are rounded first, then scaled by a rounded power of ten, and
the result is rounded again. Three roundings may miss the nearest double. -/
def magnitude? (n : Number) : Option Nat := do
  let digits ← Binary.ofNat .double n.digits
  match n.exponent.getD 0 - n.places with
  | .ofNat power => multiplyByPower digits power
  | .negSucc power => divideByPower digits (power + 1)

/-- the binary number that a number is read as; none if it is too great for a double -/
def bits? (f : Binary.Format) (n : Number) : Option Nat := do
  let magnitude ← n.magnitude?
  return Binary.bitsOf f n.negative (Binary.convert .double f magnitude)

end Number

end ByNeed.Json
