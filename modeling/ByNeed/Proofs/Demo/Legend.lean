/-
What the cells of a heap stand for.

A legend gives some cells a meaning: an outcome, a sequence, or two sequences side by side, one of them numbering the
other. A heap fits a legend if all code in it computes what the legend says, and all stored outcomes are what it says.
Cells outside the legend may hold anything.

Meanings carry ranks. Code demands only cells that rank below its own cell, so a cell in progress is never demanded. A
list has a rank for each of its positions: in most lists they are all the same, but the Fibonacci list refers to itself
two positions back. A filter ranks above all positions of the list that it searches, and a sieve above any number of
filters.
-/
import Mathlib.SetTheory.Ordinal.Arithmetic
import ByNeed.Proofs.Order
import ByNeed.Proofs.Demo.Sequences

namespace ByNeed.Demo

/-- what a cell stands for, and how it ranks; an atom without an outcome never answers -/
inductive Meaning where
  | atom (o : Option (Outcome Value)) (rank : Ordinal.{0})
  | list (s : Seq) (ranks : Nat → Ordinal.{0})
  /-- a list of numbered elements, the numbers from the first sequence -/
  | pairs (s t : Seq) (ranks : Nat → Ordinal.{0})

namespace Meaning

def rank : Meaning → Ordinal.{0}
  | atom _ rank => rank
  | list _ ranks => ranks 0
  | pairs _ _ ranks => ranks 0

/-- demanding the cell gives an outcome -/
def Defined : Meaning → Prop
  | atom o _ => o ≠ none
  | list s _ => s 0 ≠ .stuck
  | pairs s t _ => Seq.zip s t 0 ≠ .stuck

end Meaning

abbrev Legend := Ref → Option Meaning

namespace Legend

/-- the cell of an element that ranks at most so high -/
def IsElem (Γ : Legend) (r : Ref) (o : Outcome Int64) (high : Ordinal.{0}) : Prop :=
  ∃ rank ≤ high, Γ r = some (.atom (some (.int <$> o)) rank)

/-- the first cell of a list whose positions rank at most so high -/
def IsList (Γ : Legend) (r : Ref) (s : Seq) (high : Nat → Ordinal.{0}) : Prop :=
  ∃ ranks, (∀ i, ranks i ≤ high i) ∧ Γ r = some (.list s ranks)

/-- the cell of a numbered element, whose two cells rank no higher -/
def IsPair (Γ : Legend) (r x y : Ref) (a b : Outcome Int64) (high : Ordinal.{0}) : Prop :=
  Γ r = some (.atom (some (.ok (.numbered x y))) high) ∧ Γ.IsElem x a high ∧ Γ.IsElem y b high

/-- the outcome is what the meaning says -/
inductive Answers (Γ : Legend) : Outcome Value → Meaning → Prop where
  | atom (o : Outcome Value) (rank : Ordinal.{0}) : Answers Γ o (.atom (some o) rank)
  | failed {s : Seq} {e : EvalError} (hnode : s 0 = .failed e) (ranks : Nat → Ordinal.{0}) :
      Answers Γ (.error e) (.list s ranks)
  | nil {s : Seq} (hnode : s 0 = .stop) (ranks : Nat → Ordinal.{0}) : Answers Γ (.ok .nil) (.list s ranks)
  | cons {s : Seq} {o : Outcome Int64} {ranks : Nat → Ordinal.{0}} {x xs : Ref} (hnode : s 0 = .item o)
      (hhead : Γ.IsElem x o (ranks 0)) (htail : Γ.IsList xs (s.drop 1) fun i => ranks (i + 1)) :
      Answers Γ (.ok (.cons x xs)) (.list s ranks)
  | pairsFailed {s t : Seq} {e : EvalError} (hnode : Seq.zip s t 0 = .failed e) (ranks : Nat → Ordinal.{0}) :
      Answers Γ (.error e) (.pairs s t ranks)
  | pairsNil {s t : Seq} (hnode : Seq.zip s t 0 = .stop) (ranks : Nat → Ordinal.{0}) :
      Answers Γ (.ok .nil) (.pairs s t ranks)
  | pairsCons {s t : Seq} {a b : Outcome Int64} {ranks : Nat → Ordinal.{0}} {r x y rs : Ref} (hfirst : s 0 = .item a)
      (hsecond : t 0 = .item b) (hhead : Γ.IsPair r x y a b (ranks 0))
      (htail : Γ rs = some (.pairs (s.drop 1) (t.drop 1) fun i => ranks (i + 1))) :
      Answers Γ (.ok (.cons r rs)) (.pairs s t ranks)

/-- the code computes what the meaning says, from cells that rank below it -/
inductive Codes (Γ : Legend) : Code → Meaning → Prop where
  | int (n : Int64) (rank : Ordinal.{0}) : Codes Γ (.int n) (.atom (some (.ok (.int n))) rank)
  | failing (e : EvalError) (rank : Ordinal.{0}) : Codes Γ (.failing e) (.atom (some (.error e)) rank)
  | broken {s : Seq} {e : EvalError} (hnode : s 0 = .failed e) (ranks : Nat → Ordinal.{0}) :
      Codes Γ (.failing e) (.list s ranks)
  | upFrom (n : Int64) (ranks : Nat → Ordinal.{0}) : Codes Γ (.upFrom n) (.list (.upFrom n.toInt) ranks)
  | tail {xs : Ref} {s : Seq} {low ranks : Nat → Ordinal.{0}} (hlist : Γ.IsList xs s low) (hfirst : low 0 < ranks 0)
      (hbelow : ∀ i, low (i + 1) < ranks i) : Codes Γ (.tail xs) (.list s.tail ranks)
  | filter {p xs : Ref} {o : Outcome Int64} {s : Seq} {divisor : Ordinal.{0}} {low ranks : Nat → Ordinal.{0}}
      (helem : Γ.IsElem p o divisor) (hlist : Γ.IsList xs s low) (habove : ∀ j, Order.succ divisor < ranks j)
      (hbelow : ∀ i j, Order.succ (low i) < ranks j) :
      Codes Γ (.filter (Task.indivisibleBy p) xs) (.list (s.filter o) ranks)
  | zip {xs ys : Ref} {s t : Seq} {left right ranks : Nat → Ordinal.{0}} (hfirst : Γ.IsList xs s left)
      (hsecond : Γ.IsList ys t right) (hbelow : ∀ i, left i < ranks i) (hbeside : ∀ i, right i < ranks i) :
      Codes Γ (.zipWith Task.plus xs ys) (.list (.zip s t) ranks)
  | sieve {xs : Ref} {s : Seq} {low ranks : Nat → Ordinal.{0}} {bound : Ordinal.{0}} (hlist : Γ.IsList xs s low)
      (hbelow : ∀ i, low i ≤ bound) (habove : ∀ j, bound < ranks j)
      (hlimit : ∀ j a, a < ranks j → Order.succ a < ranks j) : Codes Γ (.sieve xs) (.list s.sieve ranks)
  | fibs {self : Ref} {ranks : Nat → Ordinal.{0}} (hlist : Γ.IsList self .fibs ranks)
      (hgaps : ∀ i, Order.succ (ranks i) < ranks (i + 1)) : Codes Γ (.fibs self) (.list .fibs ranks)
  | ones {self : Ref} {ranks : Nat → Ordinal.{0}} (hlist : Γ.IsList self .ones ranks)
      (hmono : ∀ i, ranks i ≤ ranks (i + 1)) : Codes Γ (.ones self) (.list .ones ranks)
  | plus {x y : Ref} {a b : Outcome Int64} {left right rank : Ordinal.{0}} (hfirst : Γ.IsElem x a left)
      (hsecond : Γ.IsElem y b right) (hbelow : left < rank) (hbeside : right < rank) :
      Codes Γ (.enter .plus [y, x]) (.atom (some (.int <$> plusOf a b)) rank)
  | indivisible {n p : Ref} {a b : Outcome Int64} {left right rank : Ordinal.{0}} (hfirst : Γ.IsElem n a left)
      (hsecond : Γ.IsElem p b right) (hbelow : left < rank) (hbeside : right < rank) :
      Codes Γ (.enter .indivisible [n, p]) (.atom ((verdict b a).map (Value.bool <$> ·)) rank)
  | pairs {xs ys : Ref} {s t : Seq} {left right ranks : Nat → Ordinal.{0}} (hfirst : Γ.IsList xs s left)
      (hsecond : Γ.IsList ys t right) (hbelow : ∀ i, left i < ranks i) (hbeside : ∀ i, right i < ranks i) :
      Codes Γ (.zipWith Task.number xs ys) (.pairs s t ranks)
  | number (x y : Ref) (rank : Ordinal.{0}) :
      Codes Γ (.enter .number [y, x]) (.atom (some (.ok (.numbered x y))) rank)
  | index {r x y : Ref} {a b : Outcome Int64} {low rank : Ordinal.{0}} (hpair : Γ.IsPair r x y a b low)
      (hbelow : low < rank) : Codes Γ (.enter .index [r]) (.atom (some (.int <$> a)) rank)
  | element {r x y : Ref} {a b : Outcome Int64} {low rank : Ordinal.{0}} (hpair : Γ.IsPair r x y a b low)
      (hbelow : low < rank) : Codes Γ (.enter .element [r]) (.atom (some (.int <$> b)) rank)

/-- every meaning of the first is one of the second -/
def Within (Γ Γ' : Legend) : Prop := ∀ r m, Γ r = some m → Γ' r = some m

def add (Γ : Legend) (r : Ref) (m : Meaning) : Legend := fun q => if q = r then some m else Γ q

/-- code and outcomes in the heap are what the legend says -/
structure Fits (Γ : Legend) (h : Heap Unit Code Value) : Prop where
  inside : ∀ {r m}, Γ r = some m → r < h.size
  code : ∀ {r m c}, Γ r = some m → h[r]? = some (.pending c) → Γ.Codes c m
  stored : ∀ {r m o}, Γ r = some m → h.outcome? r = some o → Γ.Answers o m

/-- cells in progress rank at least so high -/
def Above (Γ : Legend) (h : Heap Unit Code Value) (rank : Ordinal.{0}) : Prop :=
  ∀ r m, Γ r = some m → h[r]? = some (.busy ()) → rank ≤ m.rank

def Calm (Γ : Legend) (h : Heap Unit Code Value) : Prop := ∀ r m, Γ r = some m → h[r]? ≠ some (.busy ())

/-- the first legend and heap have grown to the second, and no cell has been left in progress -/
structure Grows (Γ : Legend) (h : Heap Unit Code Value) (Γ' : Legend) (h' : Heap Unit Code Value) : Prop where
  within : Γ.Within Γ'
  fits : Γ'.Fits h'
  calm : ∀ {r m}, Γ' r = some m → h'[r]? = some (.busy ()) → Γ r = some m ∧ h[r]? = some (.busy ())

section

variable {Γ Γ' Γ'' : Legend} {h h' h'' : Heap Unit Code Value} {r : Ref} {m : Meaning} {o : Outcome Value} {c : Code}
  {s : Seq} {rank high : Ordinal.{0}} {ranks highs : Nat → Ordinal.{0}}

theorem Within.trans (hw : Γ.Within Γ') (hw' : Γ'.Within Γ'') : Γ.Within Γ'' := fun r m hr => hw' r m (hw r m hr)

theorem IsElem.within {o : Outcome Int64} (he : Γ.IsElem r o high) (hw : Γ.Within Γ') : Γ'.IsElem r o high := by
  obtain ⟨rank, hrank, hr⟩ := he
  exact ⟨rank, hrank, hw r _ hr⟩

theorem IsElem.le {o : Outcome Int64} (he : Γ.IsElem r o rank) (hle : rank ≤ high) : Γ.IsElem r o high := by
  obtain ⟨low, hlow, hr⟩ := he
  exact ⟨low, hlow.trans hle, hr⟩

theorem IsList.within (hl : Γ.IsList r s highs) (hw : Γ.Within Γ') : Γ'.IsList r s highs := by
  obtain ⟨ranks, hranks, hr⟩ := hl
  exact ⟨ranks, hranks, hw r _ hr⟩

theorem IsList.le (hl : Γ.IsList r s ranks) (hle : ∀ i, ranks i ≤ highs i) : Γ.IsList r s highs := by
  obtain ⟨low, hlow, hr⟩ := hl
  exact ⟨low, fun i => (hlow i).trans (hle i), hr⟩

theorem IsPair.within {x y : Ref} {a b : Outcome Int64} (hpair : Γ.IsPair r x y a b high) (hw : Γ.Within Γ') :
    Γ'.IsPair r x y a b high := by
  obtain ⟨hr, hfirst, hsecond⟩ := hpair
  exact ⟨hw r _ hr, hfirst.within hw, hsecond.within hw⟩

theorem Answers.within (ha : Γ.Answers o m) (hw : Γ.Within Γ') : Γ'.Answers o m := by
  cases ha with
  | atom o rank => exact .atom o rank
  | failed hnode ranks => exact .failed hnode ranks
  | nil hnode ranks => exact .nil hnode ranks
  | cons hnode hhead htail => exact .cons hnode (hhead.within hw) (htail.within hw)
  | pairsFailed hnode ranks => exact .pairsFailed hnode ranks
  | pairsNil hnode ranks => exact .pairsNil hnode ranks
  | pairsCons hfirst hsecond hhead htail => exact .pairsCons hfirst hsecond (hhead.within hw) (hw _ _ htail)

/-- What answers a list answers every list with the same sequence that ranks higher. -/
theorem Answers.le (ha : Γ.Answers o (.list s ranks)) (hle : ∀ i, ranks i ≤ highs i) : Γ.Answers o (.list s highs) := by
  cases ha with
  | failed hnode => exact .failed hnode highs
  | nil hnode => exact .nil hnode highs
  | cons hnode hhead htail => exact .cons hnode (hhead.le (hle 0)) (htail.le fun i => hle (i + 1))

theorem Codes.within (hk : Γ.Codes c m) (hw : Γ.Within Γ') : Γ'.Codes c m := by
  cases hk with
  | int n rank => exact .int n rank
  | failing e rank => exact .failing e rank
  | broken hnode ranks => exact .broken hnode ranks
  | upFrom n ranks => exact .upFrom n ranks
  | tail hlist hfirst hbelow => exact .tail (hlist.within hw) hfirst hbelow
  | filter helem hlist habove hbelow => exact .filter (helem.within hw) (hlist.within hw) habove hbelow
  | zip hfirst hsecond hbelow hbeside => exact .zip (hfirst.within hw) (hsecond.within hw) hbelow hbeside
  | sieve hlist hbelow habove hlimit => exact .sieve (hlist.within hw) hbelow habove hlimit
  | fibs hlist hgaps => exact .fibs (hlist.within hw) hgaps
  | ones hlist hmono => exact .ones (hlist.within hw) hmono
  | plus hfirst hsecond hbelow hbeside => exact .plus (hfirst.within hw) (hsecond.within hw) hbelow hbeside
  | indivisible hfirst hsecond hbelow hbeside =>
    exact .indivisible (hfirst.within hw) (hsecond.within hw) hbelow hbeside
  | pairs hfirst hsecond hbelow hbeside => exact .pairs (hfirst.within hw) (hsecond.within hw) hbelow hbeside
  | number x y rank => exact .number x y rank
  | index hpair hbelow => exact .index (hpair.within hw) hbelow
  | element hpair hbelow => exact .element (hpair.within hw) hbelow

theorem Grows.refl (hfits : Γ.Fits h) : Grows Γ h Γ h := ⟨fun _ _ hr => hr, hfits, fun hr hb => ⟨hr, hb⟩⟩

theorem Grows.trans (hg : Grows Γ h Γ' h') (hg' : Grows Γ' h' Γ'' h'') : Grows Γ h Γ'' h'' :=
  ⟨hg.within.trans hg'.within, hg'.fits, fun hr hb => let ⟨hr', hb'⟩ := hg'.calm hr hb; hg.calm hr' hb'⟩

theorem Grows.above (hg : Grows Γ h Γ' h') (habove : Γ.Above h rank) : Γ'.Above h' rank := by
  intro r m hr hb
  obtain ⟨hr', hb'⟩ := hg.calm hr hb
  exact habove r m hr' hb'

theorem Grows.keeps_calm (hg : Grows Γ h Γ' h') (hcalm : Γ.Calm h) : Γ'.Calm h' := by
  intro r m hr hb
  obtain ⟨hr', hb'⟩ := hg.calm hr hb
  exact hcalm r m hr' hb'

theorem add_self (Γ : Legend) (r : Ref) (m : Meaning) : Γ.add r m r = some m := if_pos rfl

theorem isElem_add (Γ : Legend) (r : Ref) (o : Outcome Int64) (rank : Ordinal.{0}) :
    (Γ.add r (.atom (some (.int <$> o)) rank)).IsElem r o rank :=
  ⟨rank, le_rfl, add_self _ _ _⟩

theorem isList_add (Γ : Legend) (r : Ref) (s : Seq) (ranks : Nat → Ordinal.{0}) :
    (Γ.add r (.list s ranks)).IsList r s ranks :=
  ⟨ranks, fun _ => le_rfl, add_self _ _ _⟩

theorem within_add (hfits : Γ.Fits h) (m : Meaning) : Γ.Within (Γ.add h.size m) := by
  intro r k hr
  rw [add, if_neg (Nat.ne_of_lt (hfits.inside hr)), hr]

/-- A new cell joins the legend with the meaning of what it holds. -/
theorem grows_push (hfits : Γ.Fits h) {cell : Cell Unit Code Value} (hbusy : cell ≠ .busy ())
    (hcode : ∀ c, cell = .pending c → (Γ.add h.size m).Codes c m)
    (hstored : ∀ o, cell.outcome? = some o → (Γ.add h.size m).Answers o m) :
    Grows Γ h (Γ.add h.size m) (h.push cell) := by
  have hwithin := within_add hfits m
  -- the new cell, or an old one that is as it was
  have hcases : ∀ {r k}, Γ.add h.size m r = some k → r = h.size ∧ k = m ∨ r < h.size ∧ Γ r = some k := by
    intro r k hr
    rw [add] at hr
    split at hr
    · exact .inl ⟨‹_›, (Option.some.inj hr).symm⟩
    · exact .inr ⟨hfits.inside hr, hr⟩
  have hnew : (h.push cell)[h.size]? = some cell := by simp
  have hhold : ∀ {r}, r < h.size → (h.push cell)[r]? = h[r]? := by
    intro r hr
    rw [Array.getElem?_push, if_neg (Nat.ne_of_lt hr)]
  refine ⟨hwithin, ⟨?_, ?_, ?_⟩, ?_⟩
  · intro r k hr
    rw [Array.size_push]
    rcases hcases hr with ⟨rfl, -⟩ | ⟨hlt, -⟩
    · exact Nat.lt_succ_self _
    · exact Nat.lt_succ_of_lt hlt
  · intro r k c hr hc
    rcases hcases hr with ⟨rfl, rfl⟩ | ⟨hlt, hr⟩
    · rw [hnew] at hc
      exact hcode c (Option.some.inj hc)
    · rw [hhold hlt] at hc
      exact (hfits.code hr hc).within hwithin
  · intro r k o hr ho
    rcases hcases hr with ⟨rfl, rfl⟩ | ⟨hlt, hr⟩
    · rw [Heap.outcome?, hnew] at ho
      exact hstored o ho
    · rw [Heap.outcome?, hhold hlt] at ho
      exact (hfits.stored hr ho).within hwithin
  · intro r k hr hb
    rcases hcases hr with ⟨rfl, rfl⟩ | ⟨hlt, hr⟩
    · rw [hnew] at hb
      exact absurd (Option.some.inj hb) hbusy
    · rw [hhold hlt] at hb
      exact ⟨hr, hb⟩

theorem grows_ready (hfits : Γ.Fits h) {v : Value} (hanswers : (Γ.add h.size m).Answers (.ok v) m) :
    Grows Γ h (Γ.add h.size m) (h.push (.value v)) := by
  refine grows_push hfits (by simp) (by simp) ?_
  rintro o ho
  cases ho
  exact hanswers

theorem grows_delay (hfits : Γ.Fits h) {c : Code} (hcodes : (Γ.add h.size m).Codes c m) :
    Grows Γ h (Γ.add h.size m) (h.push (.pending c)) := by
  refine grows_push hfits (by simp) ?_ ?_
  · rintro _ ⟨⟩
    exact hcodes
  · rintro o ⟨⟩

/-- cells wait for the outcome that the meaning says, which is then theirs -/
def Awaits (Γ : Legend) (rs : List Ref) (m : Meaning) : Prop :=
  ∀ r ∈ rs, ∃ k, Γ r = some k ∧ ∀ Γ' o, Γ.Within Γ' → Γ'.Answers o m → Γ'.Answers o k

theorem Awaits.within {rs : List Ref} (ha : Γ.Awaits rs m) (hw : Γ.Within Γ') : Γ'.Awaits rs m := by
  intro r hr
  obtain ⟨k, hk, hconvert⟩ := ha r hr
  exact ⟨k, hw r k hk, fun Γ'' o hw' => hconvert Γ'' o (hw.trans hw')⟩

/-- The outcome of a walk is stored in all its cells. -/
theorem grows_settleAll (hfits : Γ.Fits h) {rs : List Ref} (hawaits : Γ.Awaits rs m) (hanswers : Γ.Answers o m) :
    Grows Γ h Γ (h.settleAll o rs) ∧ ∀ r ∈ rs, (h.settleAll o rs).outcome? r = some o := by
  have hin : ∀ r ∈ rs, (h.settleAll o rs)[r]? = some (.ofOutcome o) := by
    intro r hr
    obtain ⟨k, hk, -⟩ := hawaits r hr
    have hlt := hfits.inside hk
    exact Heap.getElem?_settleAll_of_mem hr (Array.getElem?_eq_getElem hlt)
  have hout : ∀ r, r ∉ rs → (h.settleAll o rs)[r]? = h[r]? := fun r hr => Heap.getElem?_settleAll_of_notMem hr
  refine ⟨⟨fun _ _ hr => hr, ⟨?_, ?_, ?_⟩, ?_⟩, fun r hr => ?_⟩
  · intro r k hr
    by_cases hmem : r ∈ rs
    · exact (Array.getElem?_eq_some_iff.1 (hin r hmem)).1
    · exact (Array.getElem?_eq_some_iff.1 ((hout r hmem).trans (Array.getElem?_eq_getElem (hfits.inside hr)))).1
  · intro r k c hr hc
    by_cases hmem : r ∈ rs
    · rw [hin r hmem] at hc
      exact absurd (Option.some.inj hc) (Cell.ofOutcome_ne_pending o c)
    · rw [hout r hmem] at hc
      exact hfits.code hr hc
  · intro r k x hr hx
    by_cases hmem : r ∈ rs
    · rw [Heap.outcome?, hin r hmem, Option.bind_some, Cell.outcome?_ofOutcome] at hx
      obtain ⟨k', hk', hconvert⟩ := hawaits r hmem
      rw [hr] at hk'
      cases hk'
      cases hx
      exact hconvert Γ o (fun _ _ hr => hr) hanswers
    · rw [Heap.outcome?, hout r hmem] at hx
      exact hfits.stored hr hx
  · intro r k hr hb
    by_cases hmem : r ∈ rs
    · rw [hin r hmem] at hb
      exact absurd (Option.some.inj hb) (Cell.ofOutcome_ne_busy o ())
    · rw [hout r hmem] at hb
      exact ⟨hr, hb⟩
  · rw [Heap.outcome?, hin r hr, Option.bind_some, Cell.outcome?_ofOutcome]

end

end Legend

end ByNeed.Demo
