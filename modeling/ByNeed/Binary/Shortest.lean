/-
The shortest decimal of a binary number.

A decimal reads back as a number if it lies in the interval of reals that round to it. Of the decimals with the fewest
digits that do, the nearest is taken, and of two equally near ones the even one. On the grid of decimals with a given
number of digits only the two neighbours of the number have to be tried: if any point of the grid lies in the interval,
one of them does.
-/
import ByNeed.Binary

namespace ByNeed.Binary

/-- a positive decimal: `digits` times ten to the power `exponent` -/
structure Decimal where
  digits : Nat
  exponent : Int
deriving DecidableEq, Repr

/-- number of decimal digits; zero has one -/
def digitCount (n : Nat) : Nat := (Nat.toDigits 10 n).length

/-- the interval of reals that round to a number, in half units -/
structure Interval where
  low : Nat
  middle : Nat
  high : Nat
  /-- whether the ends belong to it -/
  closed : Bool
deriving DecidableEq, Repr

/-- a power of two has its lower neighbour at half the distance; an even number keeps the ends -/
def Parts.interval (f : Format) (p : Parts) : Interval :=
  let middle := 2 * p.magnitude f
  let below := if p.fraction == 0 && 1 < p.field then p.gap / 2 else p.gap
  ⟨middle - below, middle, middle + p.gap, p.fraction % 2 == 0⟩

/-- `num / den` is less than ten to this power, and not less than a tenth of it -/
def decimalOrder (num den : Nat) : Int :=
  if den ≤ num then digitCount (num / den) else 1 - (digitCount ((den - 1) / num) : Int)

/-- the nearest decimal in the interval on the grid of ten to the power `exponent`; a half unit is one part in `den` -/
def onGrid? (i : Interval) (den : Nat) (exponent : Int) : Option Decimal :=
  let up := Nat.pow 10 (-exponent).toNat
  let step := den * Nat.pow 10 exponent.toNat
  let inside (c : Nat) : Bool :=
    if i.closed then i.low * up ≤ c * step && c * step ≤ i.high * up else i.low * up < c * step && c * step < i.high * up
  let low := i.middle * up / step
  let rest := 2 * (i.middle * up % step)
  let lowFirst := rest < step || (rest == step && low % 2 == 0)
  let order := if lowFirst then [low, low + 1] else [low + 1, low]
  (order.find? inside).map fun c => ⟨c, exponent⟩

def Decimal.trim (d : Decimal) : Decimal :=
  let zeros := ((Nat.toDigits 10 d.digits).reverse.takeWhile (· == '0')).length
  ⟨d.digits / Nat.pow 10 zeros, d.exponent + zeros⟩

def Format.enough : Format → Nat
  | .single => 9
  | .double => 17

/-- the shortest decimal that reads back as a positive finite number -/
def shortest (f : Format) (p : Parts) : Decimal :=
  let i := p.interval f
  let den := 2 * f.one
  let order := decimalOrder i.middle den
  let found := (List.range f.enough).findSome? fun count => onGrid? i den (order - (count + 1 : Nat))
  Decimal.trim (found.getD ⟨i.middle, 0⟩)

end ByNeed.Binary
