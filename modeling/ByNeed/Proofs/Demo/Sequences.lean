/-
What lists mean, as plain sequences.

A sequence says what stands at each position: an element, the end, a failure, or nothing at all (`stuck`) where a
computation is cut off or goes on for ever. There is no memory here and no order of evaluation: an element is its
outcome, and an operation on lists is a function on sequences. What stands behind an end is of no importance.
- `Blueprint.seq`: the sequence of a described list.
- `Seq.take`: what reading its first elements gives.
-/
import Mathlib.Data.Nat.Find
import ByNeed.Demo.Reading

namespace ByNeed.Demo

def Elem.outcome : Elem → Outcome Int64
  | int n => .ok n
  | failing e => .error e

/-- what stands at a position of a list -/
inductive Node where
  | item (o : Outcome Int64)
  | stop
  | failed (e : EvalError)
  /-- no answer ever comes -/
  | stuck

/-- what stands at each position, from the first on -/
abbrev Seq := Nat → Node

/-- the sum of two elements; the failure of the left one comes first -/
def plusOf (a b : Outcome Int64) : Outcome Int64 := do Checked.add (← a) (← b)

/-- whether `n` is no multiple of `p`; the failure of `n` comes first. There is no answer where the remainder has no
value. -/
def verdict (p n : Outcome Int64) : Option (Outcome Bool) :=
  match n, p with
  | .error e, _ => some (.error e)
  | .ok _, .error e => some (.error e)
  | .ok n, .ok p => if p = 0 ∨ p = -1 ∧ n = Int64.minValue then none else some (.ok (n.toInt.tmod p.toInt != 0))

def fibOf : Nat → Outcome Int64
  | 0 => .ok 0
  | 1 => .ok 1
  | i + 2 => plusOf (fibOf i) (fibOf (i + 1))

namespace Seq

/-- the sequence from position `k` on -/
def drop (k : Nat) (s : Seq) : Seq := fun i => s (i + k)

/-- some elements, and then `last` -/
def finite (elems : List Elem) (last : Node) : Seq := fun i => (elems[i]?.map fun e => .item e.outcome).getD last

/-- the numbers from `n` on; the greatest number is out of reach, as its cell would hold the next one too -/
def upFrom (n : Int) : Seq := fun i =>
  if n + i < Int64.maxValue.toInt then .item (.ok (Int64.ofInt (n + i))) else .stuck

def tail (s : Seq) : Seq :=
  match s 0 with
  | .item _ => s.drop 1
  | .stop => fun _ => .failed (.pattern "tail")
  | .failed e => fun _ => .failed e
  | .stuck => fun _ => .stuck

/-- sums side by side; the left list's failure comes before the right one's, and both before an end -/
def zip (s t : Seq) : Seq := fun i =>
  match s i, t i with
  | .failed e, _ => .failed e
  | .stuck, _ => .stuck
  | _, .failed e => .failed e
  | _, .stuck => .stuck
  | .item a, .item b => .item (plusOf a b)
  | _, _ => .stop

/-- a filter passes over this node -/
def Dropped (p : Outcome Int64) : Node → Prop
  | .item n => verdict p n = some (.ok false)
  | _ => False

instance (p : Outcome Int64) : DecidablePred (Dropped p)
  | .item n => inferInstanceAs (Decidable (verdict p n = some (.ok false)))
  | .stop | .failed _ | .stuck => isFalse id

open Classical in
/-- the first position that a filter does not pass over -/
noncomputable def search (p : Outcome Int64) (s : Seq) : Option Nat :=
  if h : ∃ k, ¬ Dropped p (s k) then some (Nat.find h) else none

/-- what a filter makes of a node that it does not pass over -/
def kept (p : Outcome Int64) : Node → Node
  | .item n =>
    match verdict p n with
    | some (.ok _) => .item n
    | some (.error e) => .failed e
    | none => .stuck
  | node => node

/-- the elements that are no multiples of `p`; the first failure of the predicate is where the list fails -/
noncomputable def filter (p : Outcome Int64) (s : Seq) : Seq
  | 0 =>
    match search p s with
    | some k => kept p (s k)
    | none => .stuck
  | i + 1 =>
    match search p s with
    | some k => filter p (s.drop (k + 1)) i
    | none => .stuck

/-- the first element, and the sieve of those after it that it does not divide -/
noncomputable def sieve (s : Seq) : Seq
  | 0 => s 0
  | i + 1 =>
    match s 0 with
    | .item n => sieve (filter n (s.drop 1)) i
    | node => node

def fibs : Seq := fun i => .item (fibOf i)

def ones : Seq := fun _ => .item (.ok 1)

/-- The first `n` elements, or all there are. Cells and elements are met in turn, and the first failure is the answer;
there is none if one of the cells has none. -/
def take : (n : Nat) → Seq → Option (Outcome (List Int64))
  | 0, _ => some (.ok [])
  | n + 1, s =>
    match s 0 with
    | .item (.ok v) => (take n (s.drop 1)).map fun o => (v :: ·) <$> o
    | .item (.error e) => some (.error e)
    | .stop => some (.ok [])
    | .failed e => some (.error e)
    | .stuck => none

end Seq

noncomputable def Blueprint.seq : Blueprint → Seq
  | literal elems => .finite elems .stop
  | broken elems e => .finite elems (.failed e)
  | upFrom n => .upFrom n.toInt
  | tail xs => xs.seq.tail
  | filter p xs => xs.seq.filter p.outcome
  | zip xs ys => .zip xs.seq ys.seq
  | zipSelf xs => .zip xs.seq xs.seq
  | sieve xs => xs.seq.sieve
  | fibs => .fibs
  | ones => .ones

/-! ## What stands behind the first position -/

namespace Seq

variable {s : Seq} {p n : Outcome Int64}

@[simp]
theorem drop_apply (k i : Nat) (s : Seq) : s.drop k i = s (i + k) := rfl

theorem drop_drop (k l : Nat) (s : Seq) : (s.drop k).drop l = s.drop (l + k) := by
  funext i
  simp [Nat.add_assoc]

theorem finite_drop (e : Elem) (elems : List Elem) (last : Node) :
    (finite (e :: elems) last).drop 1 = finite elems last := by
  funext i
  simp [finite]

theorem upFrom_drop (n : Int) : (upFrom n).drop 1 = upFrom (n + 1) := by
  funext i
  have hpos : n + (i + 1 : Nat) = n + 1 + i := by omega
  simp only [upFrom, drop_apply, hpos]

theorem sieve_drop (h : s 0 = .item n) : (sieve s).drop 1 = sieve (filter n (s.drop 1)) := by
  funext i
  simp [sieve, h]

theorem search_zero (h : ¬ Dropped p (s 0)) : search p s = some 0 := by
  have hex : ∃ k, ¬ Dropped p (s k) := ⟨0, h⟩
  simp only [search, dif_pos hex, Option.some.injEq]
  exact (Nat.find_eq_zero hex).2 h

theorem search_succ (h : Dropped p (s 0)) : search p s = (search p (s.drop 1)).map (· + 1) := by
  by_cases hex : ∃ k, ¬ Dropped p (s k)
  · have hlater : ∃ k, ¬ Dropped p (s.drop 1 k) := by
      obtain ⟨k, hk⟩ := hex
      cases k with
      | zero => exact absurd h hk
      | succ k => exact ⟨k, hk⟩
    simp only [search, dif_pos hex, dif_pos hlater, Option.map_some, Option.some.injEq]
    exact Nat.find_comp_succ hex hlater (not_not.2 h)
  · have hlater : ¬ ∃ k, ¬ Dropped p (s.drop 1 k) := fun ⟨k, hk⟩ => hex ⟨k + 1, hk⟩
    simp only [search, dif_neg hex, dif_neg hlater, Option.map_none]

/-- A list that begins with a dropped element is filtered like the rest of it. -/
theorem filter_dropped (h : Dropped p (s 0)) : filter p s = filter p (s.drop 1) := by
  funext i
  cases i <;> cases hsearch : search p (s.drop 1) <;> simp [filter, search_succ h, hsearch, drop_drop, Nat.add_comm]

theorem filter_kept (h : ¬ Dropped p (s 0)) : filter p s 0 = kept p (s 0) := by
  simp [filter, search_zero h]

theorem filter_drop (h : ¬ Dropped p (s 0)) : (filter p s).drop 1 = filter p (s.drop 1) := by
  funext i
  simp [filter, search_zero h]

theorem dropped_of_search (h : search p s = none) (k : Nat) : Dropped p (s k) := by
  by_contra hk
  have hex : ∃ k, ¬ Dropped p (s k) := ⟨k, hk⟩
  simp [search, dif_pos hex] at h

theorem search_drop (h : search p s = none) : search p (s.drop 1) = none := by
  have := search_succ (dropped_of_search h 0)
  rw [h] at this
  simpa using this.symm

end Seq

end ByNeed.Demo
