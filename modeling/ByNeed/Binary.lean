/-
Binary floating point in exact arithmetic.

A finite number of a format is a sign and a magnitude, and every magnitude is a natural number of the format's unit, its
least positive number. Sums, products and quotients are therefore exact ratios of natural numbers until `round` takes
them to the nearest number of the format, a half to the even neighbour.
-/
namespace ByNeed.Binary

inductive Format where
  | single | double
deriving DecidableEq, Repr, Inhabited

namespace Format

/-- significant bits, the leading one included -/
def precision : Format → Nat
  | single => 24
  | double => 53

def exponentBits : Format → Nat
  | single => 8
  | double => 11

/-- the exponent field of infinities and of what is no number -/
def topField (f : Format) : Nat := Nat.pow 2 f.exponentBits - 1

/-- one is two to this power, in units -/
def scale (f : Format) : Nat := Nat.pow 2 (f.exponentBits - 1) + f.precision - 3

def one (f : Format) : Nat := Nat.pow 2 f.scale

/-- the largest finite magnitude -/
def greatest (f : Format) : Nat := (Nat.pow 2 f.precision - 1) * Nat.pow 2 (f.topField - 2)

end Format

structure Parts where
  negative : Bool
  /-- exponent field -/
  field : Nat
  fraction : Nat
deriving DecidableEq, Repr

def Parts.ofBits (f : Format) (bits : Nat) : Parts :=
  let fractionBits := f.precision - 1
  { negative := bits / Nat.pow 2 (fractionBits + f.exponentBits) % 2 == 1
    field := bits / Nat.pow 2 fractionBits % Nat.pow 2 f.exponentBits
    fraction := bits % Nat.pow 2 fractionBits }

def Parts.bits (f : Format) (p : Parts) : Nat :=
  ((if p.negative then Nat.pow 2 f.exponentBits else 0) + p.field) * Nat.pow 2 (f.precision - 1) + p.fraction

/-- neither infinite nor undefined -/
def Parts.isFinite (f : Format) (p : Parts) : Bool := p.field < f.topField

/-- distance to the next larger magnitude, in units -/
def Parts.gap (p : Parts) : Nat := Nat.pow 2 (p.field - 1)

def Parts.magnitude (f : Format) (p : Parts) : Nat :=
  if p.field == 0 then p.fraction else (Nat.pow 2 (f.precision - 1) + p.fraction) * p.gap

/-- nearest natural number to a ratio, a half to the even neighbour -/
def nearest (num den : Nat) : Nat :=
  let low := num / den
  let rest := 2 * (num % den)
  if rest < den || (rest == den && low % 2 == 0) then low else low + 1

/-- the nearest magnitude to a ratio of units; none if it lies beyond the finite ones -/
def round (f : Format) (num den : Nat) : Option Nat :=
  let step := Nat.pow 2 (Nat.log2 (num / den) + 1 - f.precision)
  let rounded := nearest num (den * step) * step
  if rounded ≤ f.greatest then some rounded else none

/-- the bit pattern of a magnitude with a sign; beyond the finite ones it is infinity -/
def bitsOf (f : Format) (negative : Bool) : Option Nat → Nat
  | none => Parts.bits f ⟨negative, f.topField, 0⟩
  | some magnitude =>
    let field := Nat.log2 magnitude + 2 - f.precision
    if magnitude < Nat.pow 2 (f.precision - 1) then Parts.bits f ⟨negative, 0, magnitude⟩
    else Parts.bits f ⟨negative, field, magnitude / Nat.pow 2 (field - 1) - Nat.pow 2 (f.precision - 1)⟩

def ofNat (f : Format) (n : Nat) : Option Nat := round f (n * f.one) 1

def mul (f : Format) (a b : Nat) : Option Nat := round f (a * b) f.one

def div (f : Format) (a b : Nat) : Option Nat := round f (a * f.one) b

/-- a magnitude of one format rounded to another -/
def convert (source target : Format) (a : Nat) : Option Nat := round target (a * target.one) source.one

end ByNeed.Binary
