/-
Arithmetic on 64-bit integers that reports what does not fit.
-/
import ByNeed.Error

namespace ByNeed.Checked

/-- the 64-bit integer with this value, if there is one -/
def fit? (n : Int) : Option Int64 :=
  if -Nat.pow 2 63 ≤ n ∧ n < Nat.pow 2 63 then some (Int64.ofInt n) else none

def fit (n : Int) : Outcome Int64 :=
  match fit? n with
  | some n => .ok n
  | none => .error .overflow

def add (x y : Int64) : Outcome Int64 := fit (x.toInt + y.toInt)

def sub (x y : Int64) : Outcome Int64 := fit (x.toInt - y.toInt)

def mul (x y : Int64) : Outcome Int64 := fit (x.toInt * y.toInt)

/-- the quotient, rounded toward zero -/
def div (x y : Int64) : Outcome Int64 :=
  if y = 0 then .error (.user "divide by zero") else fit (x.toInt.tdiv y.toInt)

def neg (x : Int64) : Outcome Int64 := fit (-x.toInt)

section

variable {n : Int} {m : Int64}

theorem fit?_eq_some_iff : fit? n = some m ↔ m.toInt = n := by
  simp only [fit?, Option.ite_none_right_eq_some, Option.some.injEq]
  constructor
  · rintro ⟨⟨hlow, hhigh⟩, rfl⟩
    exact Int64.toInt_ofInt_of_le hlow hhigh
  · rintro rfl
    exact ⟨⟨m.le_toInt, m.toInt_lt⟩, m.ofInt_toInt⟩

theorem fit?_eq_none_iff : fit? n = none ↔ n < Int64.minValue.toInt ∨ Int64.maxValue.toInt < n := by
  have hmin : Int64.minValue.toInt = -9223372036854775808 := by decide
  have hmax : Int64.maxValue.toInt = 9223372036854775807 := by decide
  have hpow : ((Nat.pow 2 63 : Nat) : Int) = 9223372036854775808 := by decide
  simp only [fit?, ite_eq_right_iff, reduceCtorEq, imp_false, hmin, hmax, hpow]
  omega

end

end ByNeed.Checked
