/-
The order in which cells are forced does not matter.

A plain procedure forces cells one after another, ends with the first error it gets, and otherwise with a value, an
error of its own, another cell or other plain code. Cells may depend on each other in circles.

What a goal gives (`Gives`) is said without a memory and without cells in progress: a cell is opened every time it is
needed. A goal means what it gives, and a black hole if it gives nothing (`Means`). The evaluator differs: it stores a
black hole for good in the cells of a walk that meets a cell in progress. It is right to do so because of `Needs`: a
cell in progress needs the present goal, with less work left, so a cell that needs itself gives nothing.
- `walk_ends`: a plain procedure that runs in a walk comes to its meaning; cells change from code to what they mean.
- `demand_ends`: so does a demand.
- `force_order_irrelevant`: cells forced in two orders end with the same outcomes.
-/
import ByNeed.Proofs.Lifecycle

namespace ByNeed

variable {C V : Type}

/-! ## Plain procedures and what they mean -/

/-- forces cells one after another and hands on the first error -/
inductive Plain (E : Engine Empty C V) : Comp Empty C V (Next C V) → Prop where
  | value (v : V) : Plain E (.done (.value v))
  | cell (r : Ref) : Plain E (.done (.cell r))
  | code {c : C} (hbody : Plain E (E.body c)) : Plain E (.done (.code c))
  | fail (e : EvalError) : Plain E (.fail e)
  | force {r : Ref} {k : Outcome V → Comp Empty C V (Next C V)} (herrors : ∀ e, k (.error e) = .fail e)
      (hnext : ∀ v, Plain E (k (.ok v))) : Plain E (.force r k)

def Heap.PlainCode (E : Engine Empty C V) (h : Heap Unit C V) : Prop :=
  ∀ (r : Ref) (c : C), h[r]? = some (.pending c) → Plain E (E.body c)

/-- what an outcome is wanted of -/
inductive Goal (C V : Type) where
  | cell (r : Ref)
  | comp (c : Comp Empty C V (Next C V))

/-- what a goal gives over the cells of `h`, which stay as they are, and the work it takes -/
inductive Gives (E : Engine Empty C V) (h : Heap Unit C V) : Nat → Goal C V → Outcome V → Prop where
  /-- a cell without code -/
  | stored {r : Ref} {o : Outcome V} (hanswer : (h.claim r).1 = .outcome o) : Gives E h 0 (.cell r) o
  | opened {r : Ref} {c : C} {n : Nat} {o : Outcome V} (hcode : h[r]? = some (.pending c))
      (hbody : Gives E h n (.comp (E.body c)) o) : Gives E h (n + 1) (.cell r) o
  | value (v : V) : Gives E h 0 (.comp (.done (.value v))) (.ok v)
  | cell {r : Ref} {n : Nat} {o : Outcome V} (htail : Gives E h n (.cell r) o) :
      Gives E h (n + 1) (.comp (.done (.cell r))) o
  | code {c : C} {n : Nat} {o : Outcome V} (htail : Gives E h n (.comp (E.body c)) o) :
      Gives E h (n + 1) (.comp (.done (.code c))) o
  | fail (e : EvalError) : Gives E h 0 (.comp (.fail e)) (.error e)
  | force {r : Ref} {k : Outcome V → Comp Empty C V (Next C V)} {n m : Nat} {a o : Outcome V}
      (hfirst : Gives E h n (.cell r) a) (hrest : Gives E h m (.comp (k a)) o) :
      Gives E h (n + m + 1) (.comp (.force r k)) o

/-- a goal means what it gives, and a black hole if it gives nothing -/
def Means (E : Engine Empty C V) (h : Heap Unit C V) (G : Goal C V) (o : Outcome V) : Prop :=
  (∃ n, Gives E h n G o) ∨ o = .error .blackHole ∧ ∀ n x, ¬ Gives E h n G x

/-- whatever `G` gives, `G'` gives something with less work -/
def Needs (E : Engine Empty C V) (h : Heap Unit C V) (G G' : Goal C V) : Prop :=
  ∀ n o, Gives E h n G o → ∃ m < n, ∃ x, Gives E h m G' x

section

variable {E : Engine Empty C V} {h : Heap Unit C V} {G G' G'' : Goal C V} {r : Ref} {c : C} {o o' : Outcome V}
  {k : Outcome V → Comp Empty C V (Next C V)}

theorem claim_of_pending (hcode : h[r]? = some (.pending c)) :
    h.claim r = (.granted c, h.setIfInBounds r (.busy ())) := by
  simp [Heap.claim, hcode]

theorem Gives.unique {n m : Nat} (hg : Gives E h n G o) (hg' : Gives E h m G o') : o = o' := by
  induction hg generalizing m o' with
  | stored hanswer =>
    cases hg' with
    | stored hanswer' => rw [hanswer] at hanswer'; exact Claim.outcome.inj hanswer'
    | opened hcode hbody => rw [claim_of_pending hcode] at hanswer; cases hanswer
  | opened hcode hbody ih =>
    cases hg' with
    | stored hanswer => rw [claim_of_pending hcode] at hanswer; cases hanswer
    | opened hcode' hbody' =>
      rw [hcode] at hcode'
      cases hcode'
      exact ih hbody'
  | value v => cases hg'; rfl
  | cell htail ih => cases hg' with | cell htail' => exact ih htail'
  | code htail ih => cases hg' with | code htail' => exact ih htail'
  | fail e => cases hg'; rfl
  | force hfirst hrest ihFirst ihRest =>
    cases hg' with
    | force hfirst' hrest' =>
      cases ihFirst hfirst'
      exact ihRest hrest'

theorem Means.eq_of_gives (hm : Means E h G o) {n : Nat} (hg : Gives E h n G o') : o = o' := by
  rcases hm with ⟨m, hg'⟩ | ⟨-, hnothing⟩
  · exact hg'.unique hg
  · exact absurd hg (hnothing n o')

theorem Means.unique (hm : Means E h G o) (hm' : Means E h G o') : o = o' := by
  rcases hm' with ⟨n, hg⟩ | ⟨rfl, hnothing⟩
  · exact hm.eq_of_gives hg
  · rcases hm with ⟨n, hg⟩ | ⟨rfl, -⟩
    · exact absurd hg (hnothing n o)
    · rfl

/-- goals that give the same mean the same -/
theorem Means.congr (hsame : ∀ x, (∃ n, Gives E h n G x) ↔ ∃ n, Gives E h n G' x) (hm : Means E h G o) :
    Means E h G' o := by
  rcases hm with hg | ⟨rfl, hnothing⟩
  · exact .inl ((hsame o).1 hg)
  · refine .inr ⟨rfl, fun n x hg => ?_⟩
    obtain ⟨m, hg'⟩ := (hsame x).2 ⟨n, hg⟩
    exact hnothing m x hg'

theorem Means.opened (hcode : h[r]? = some (.pending c)) (hm : Means E h (.comp (E.body c)) o) :
    Means E h (.cell r) o := by
  refine hm.congr fun x => ⟨fun ⟨n, hg⟩ => ⟨n + 1, .opened hcode hg⟩, fun ⟨n, hg⟩ => ?_⟩
  cases hg with
  | stored hanswer => rw [claim_of_pending hcode] at hanswer; cases hanswer
  | opened hcode' hbody =>
    rw [hcode] at hcode'
    cases hcode'
    exact ⟨_, hbody⟩

theorem Means.cell (hm : Means E h (.cell r) o) : Means E h (.comp (.done (.cell r))) o :=
  hm.congr fun _ => ⟨fun ⟨n, hg⟩ => ⟨n + 1, .cell hg⟩, fun ⟨_, hg⟩ => by cases hg with | cell htail => exact ⟨_, htail⟩⟩

theorem Means.code (hm : Means E h (.comp (E.body c)) o) : Means E h (.comp (.done (.code c))) o :=
  hm.congr fun _ => ⟨fun ⟨n, hg⟩ => ⟨n + 1, .code hg⟩, fun ⟨_, hg⟩ => by cases hg with | code htail => exact ⟨_, htail⟩⟩

/-- a procedure that hands on errors means a black hole if the cell it forces first gives nothing -/
theorem Means.force {a : Outcome V} (herrors : ∀ e, k (.error e) = .fail e) (hfirst : Means E h (.cell r) a)
    (hrest : Means E h (.comp (k a)) o) : Means E h (.comp (.force r k)) o := by
  rcases hfirst with ⟨n, hg⟩ | ⟨rfl, hnothing⟩
  · rcases hrest with ⟨m, hg'⟩ | ⟨rfl, hnothing⟩
    · exact .inl ⟨_, .force hg hg'⟩
    · refine .inr ⟨rfl, fun m x hg' => ?_⟩
      cases hg' with
      | force hfirst' hrest' =>
        cases hg.unique hfirst'
        exact hnothing _ _ hrest'
  · rw [herrors] at hrest
    refine .inr ⟨hrest.eq_of_gives (.fail _), fun m x hg' => ?_⟩
    cases hg' with
    | force hfirst' hrest' => exact hnothing _ _ hfirst'

theorem Needs.trans (hn : Needs E h G G') (hn' : Needs E h G' G'') : Needs E h G G'' := by
  intro n o hg
  obtain ⟨m, hm, x, hg'⟩ := hn n o hg
  obtain ⟨l, hl, y, hg''⟩ := hn' m x hg'
  exact ⟨l, hl.trans hm, y, hg''⟩

/-- **What needs itself gives nothing.** -/
theorem Needs.gives_nothing (hself : Needs E h G G) (n : Nat) (o : Outcome V) : ¬ Gives E h n G o := by
  induction n using Nat.strongRecOn generalizing o with
  | ind n ih =>
    intro hg
    obtain ⟨m, hm, x, hg'⟩ := hself n o hg
    exact ih m hm x hg'

theorem Needs.opened (hcode : h[r]? = some (.pending c)) : Needs E h (.cell r) (.comp (E.body c)) := by
  intro n o hg
  cases hg with
  | stored hanswer => rw [claim_of_pending hcode] at hanswer; cases hanswer
  | opened hcode' hbody =>
    rw [hcode] at hcode'
    cases hcode'
    exact ⟨_, Nat.lt_succ_self _, o, hbody⟩

theorem Needs.cell : Needs E h (.comp (.done (.cell r))) (.cell r) := by
  intro n o hg
  cases hg with
  | cell htail => exact ⟨_, Nat.lt_succ_self _, o, htail⟩

theorem Needs.code : Needs E h (.comp (.done (.code c))) (.comp (E.body c)) := by
  intro n o hg
  cases hg with
  | code htail => exact ⟨_, Nat.lt_succ_self _, o, htail⟩

theorem Needs.first : Needs E h (.comp (.force r k)) (.cell r) := by
  intro n o hg
  cases hg with
  | force hfirst hrest => exact ⟨_, by omega, _, hfirst⟩

theorem Needs.rest {a : Outcome V} (hm : Means E h (.cell r) a) : Needs E h (.comp (.force r k)) (.comp (k a)) := by
  intro n o hg
  cases hg with
  | force hfirst hrest =>
    cases hm.eq_of_gives hfirst
    exact ⟨_, by omega, o, hrest⟩

end

/-! ## What the evaluator knows -/

/-- the cells of `h` against those of `h₀`: left alone, settled with what they mean, or in progress for the sake of
`G` -/
def Agrees (E : Engine Empty C V) (h₀ : Heap Unit C V) (G : Goal C V) (h : Heap Unit C V) : Prop :=
  ∀ r : Ref, h[r]? = h₀[r]? ∨ (∃ o, h.outcome? r = some o ∧ Means E h₀ (.cell r) o) ∨
    h[r]? = some (.busy ()) ∧ Needs E h₀ (.cell r) G

/-- apart from the cells `rs`, cells change only from code to what they mean -/
def Learns (E : Engine Empty C V) (h₀ : Heap Unit C V) (rs : List Ref) (h h' : Heap Unit C V) : Prop :=
  ∀ r : Ref, r ∉ rs → h'[r]? = h[r]? ∨
    (∃ c, h[r]? = some (.pending c)) ∧ ∃ o, h'.outcome? r = some o ∧ Means E h₀ (.cell r) o

/-- all cells with code are among `todo` -/
def Heap.CodeIn (h : Heap Unit C V) (todo : Finset Ref) : Prop :=
  ∀ (r : Ref) (c : C), h[r]? = some (.pending c) → r ∈ todo

section

variable {E : Engine Empty C V} {h₀ h h' h'' : Heap Unit C V} {G G' : Goal C V} {rs : List Ref} {r : Ref} {c : C}
  {o : Outcome V} {todo : Finset Ref}

theorem not_pending_of_outcome (ho : h.outcome? r = some o) (c : C) : h[r]? ≠ some (.pending c) := by
  rw [Heap.outcome?_eq_some.1 ho]
  exact fun hc => Cell.ofOutcome_ne_pending o c (Option.some.inj hc)

theorem Learns.refl (h : Heap Unit C V) : Learns E h₀ rs h h := fun _ _ => .inl rfl

theorem Learns.trans (hfirst : Learns E h₀ [] h h') (hrest : Learns E h₀ rs h' h'') : Learns E h₀ rs h h'' := by
  intro r hr
  rcases hfirst r List.not_mem_nil with hsame | ⟨hcode, o, ho, hm⟩ <;> rcases hrest r hr with hsame' | ⟨⟨c, hc⟩, hknown⟩
  · exact .inl (hsame'.trans hsame)
  · exact .inr ⟨⟨c, hsame ▸ hc⟩, hknown⟩
  · exact .inr ⟨hcode, o, by rw [Heap.outcome?, hsame']; exact ho, hm⟩
  · exact absurd hc (not_pending_of_outcome ho c)

theorem Learns.keeps_busy (hlearns : Learns E h₀ [] h h') (hbusy : h[r]? = some (.busy ())) :
    h'[r]? = some (.busy ()) := by
  rcases hlearns r List.not_mem_nil with hsame | ⟨⟨c, hc⟩, -⟩
  · rw [hsame, hbusy]
  · rw [hbusy] at hc; cases hc

/-- storing an outcome in the cells of a walk touches no other cell -/
theorem learns_settleAll (o : Outcome V) : Learns E h₀ rs h (h.settleAll o rs) :=
  fun _ hr => .inl (Heap.getElem?_settleAll_of_notMem hr)

/-- a cell that had code and has none any more has its meaning -/
theorem Learns.outcome (hlearns : Learns E h₀ [] h h') (hcode : ∃ c, h[r]? = some (.pending c))
    (hopened : ∀ c, h'[r]? ≠ some (.pending c)) (hm : Means E h₀ (.cell r) o) : h'.outcome? r = some o := by
  obtain ⟨c, hc⟩ := hcode
  rcases hlearns r List.not_mem_nil with hsame | ⟨-, x, hx, hm'⟩
  · exact absurd (hsame.trans hc) (hopened c)
  · rw [hx, hm'.unique hm]

theorem Learns.outcome_unique (hlearns : Learns E h₀ [] h h') (hlearns' : Learns E h₀ [] h h'') {x y : Outcome V}
    (hx : h'.outcome? r = some x) (hy : h''.outcome? r = some y) : x = y := by
  rcases hlearns r List.not_mem_nil with hsame | ⟨⟨c, hc⟩, x', hx', hm⟩
  · rcases hlearns' r List.not_mem_nil with hsame' | ⟨⟨c, hc⟩, -⟩
    · rw [Heap.outcome?, hsame] at hx
      rw [Heap.outcome?, hsame', hx] at hy
      exact Option.some.inj hy
    · exact absurd (hsame.trans hc) (not_pending_of_outcome hx c)
  · rcases hlearns' r List.not_mem_nil with hsame' | ⟨-, y', hy', hm'⟩
    · exact absurd (hsame'.trans hc) (not_pending_of_outcome hy c)
    · rw [hx'] at hx
      rw [hy'] at hy
      cases hx; cases hy
      exact hm.unique hm'

/-- a cell that was claimed and then settled with its meaning has changed from code to that -/
theorem Learns.claimed (hc : h[r]? = some (.pending c))
    (hlearns : Learns E h₀ (r :: rs) (h.setIfInBounds r (.busy ())) h') (ho : h'.outcome? r = some o)
    (hm : Means E h₀ (.cell r) o) : Learns E h₀ rs h h' := by
  intro i hi
  by_cases hir : i = r
  · subst hir
    exact .inr ⟨⟨c, hc⟩, o, ho, hm⟩
  · have hl := hlearns i (by simp [hir, hi])
    rwa [Heap.getElem?_claimed hc, if_neg hir] at hl

theorem Heap.CodeIn.learns (hcode : h.CodeIn todo) (hlearns : Learns E h₀ [] h h') : h'.CodeIn todo := by
  intro r c hc
  rcases hlearns r List.not_mem_nil with hsame | ⟨-, o, ho, -⟩
  · exact hcode r c (hsame ▸ hc)
  · exact absurd hc (not_pending_of_outcome ho c)

theorem Heap.CodeIn.claimed (hcode : h.CodeIn todo) (hc : h[r]? = some (.pending c)) :
    Heap.CodeIn (h.setIfInBounds r (.busy ())) (todo.erase r) := by
  intro i c' hi
  rw [Heap.getElem?_claimed hc] at hi
  split_ifs at hi with hir
  · cases hi
  · exact Finset.mem_erase.2 ⟨hir, hcode i c' hi⟩

theorem Agrees.learns (hagrees : Agrees E h₀ G h) (hlearns : Learns E h₀ [] h h') : Agrees E h₀ G h' := by
  intro r
  rcases hlearns r List.not_mem_nil with hsame | ⟨-, hknown⟩
  · rw [Heap.outcome?, hsame]
    exact hagrees r
  · exact .inr (.inl hknown)

theorem Agrees.needs (hagrees : Agrees E h₀ G h) (hn : Needs E h₀ G G') : Agrees E h₀ G' h :=
  fun r => (hagrees r).imp_right fun hknown => hknown.imp_right fun ⟨hbusy, hr⟩ => ⟨hbusy, hr.trans hn⟩

/-- code that is handed out is the code that the cell began with, and runs for the sake of the cell -/
theorem Agrees.claimed (hagrees : Agrees E h₀ (.cell r) h) (hc : h[r]? = some (.pending c)) :
    h₀[r]? = some (.pending c) ∧ Agrees E h₀ (.comp (E.body c)) (h.setIfInBounds r (.busy ())) := by
  have hc₀ : h₀[r]? = some (.pending c) := by
    rcases hagrees r with hsame | ⟨o, ho, -⟩ | ⟨hbusy, -⟩
    · rw [← hsame, hc]
    · exact absurd hc (not_pending_of_outcome ho c)
    · rw [hc] at hbusy; cases hbusy
  refine ⟨hc₀, fun i => ?_⟩
  rw [Heap.outcome?, Heap.getElem?_claimed hc]
  split_ifs with hi
  · subst hi
    exact .inr (.inr ⟨rfl, .opened hc₀⟩)
  · exact hagrees.needs (.opened hc₀) i

/-- the answer to a claim is what the cell means: a cell in progress needs itself -/
theorem Agrees.means (hagrees : Agrees E h₀ (.cell r) h) (hanswer : h.claim r = (.outcome o, h)) :
    Means E h₀ (.cell r) o := by
  rcases hagrees r with hsame | ⟨x, hx, hm⟩ | ⟨hbusy, hself⟩
  · have hanswer₀ : (h₀.claim r).1 = .outcome o := by
      have hfst : (h₀.claim r).1 = (h.claim r).1 := by
        unfold Heap.claim
        rw [hsame]
        cases h₀[r]? with
        | none => rfl
        | some x => cases x <;> rfl
      rw [hfst, hanswer]
    exact .inl ⟨0, .stored hanswer₀⟩
  · rw [Heap.claim_of_outcome hx] at hanswer
    cases hanswer
    exact hm
  · have ho : h.claim r = (.outcome (.error .blackHole), h) := by simp [Heap.claim, hbusy]
    rw [ho] at hanswer
    cases hanswer
    exact .inr ⟨rfl, hself.gives_nothing⟩

end

/-! ## Plain procedures come to an end -/

namespace Machine

/-- some number of steps leads from one state to the other -/
abbrev Reaches (E : Engine Empty C V) : Machine C V → Machine C V → Prop :=
  Relation.ReflTransGen fun m m' => m' = m.step E

/-- from `m`, the meaning of `G` is handed to `stack`; it has been stored in `rs`, and other cells have changed only
from code to what they mean -/
def Ends (E : Engine Empty C V) (h₀ : Heap Unit C V) (rs : List Ref) (G : Goal C V) (m : Machine C V)
    (stack : List (Frame Empty C V)) : Prop :=
  ∃ h' o, Reaches E m ⟨h', m.events, .give o, stack⟩ ∧ Means E h₀ G o ∧ Learns E h₀ rs m.heap h' ∧
    ∀ x ∈ rs, h'.outcome? x = some o

/-- every plain procedure ends that runs in a walk, as long as no cell outside `todo` has code -/
def Walks (E : Engine Empty C V) (h₀ : Heap Unit C V) (todo : Finset Ref) : Prop :=
  ∀ c, Plain E c → ∀ (h : Heap Unit C V) (rs : List Ref) (events : List String) (stack : List (Frame Empty C V)),
    h.CodeIn todo → Agrees E h₀ (.comp c) h → (∀ x ∈ rs, h[x]? = some (.busy ())) →
    Ends E h₀ rs (.comp c) ⟨h, events, .run c, .walk rs :: stack⟩ stack

section

variable {E : Engine Empty C V} {h₀ h : Heap Unit C V} {rs : List Ref} {r : Ref} {c : C} {o : Outcome V}
  {events : List String} {stack : List (Frame Empty C V)} {todo : Finset Ref}

/-- a walk that is over stores its outcome in its cells -/
theorem ends_close {G : Goal C V} {m : Machine C V} (hbusy : ∀ x ∈ rs, m.heap[x]? = some (.busy ()))
    (hreach : Reaches E m ⟨m.heap.settleAll o rs, m.events, .give o, stack⟩) (hm : Means E h₀ G o) :
    Ends E h₀ rs G m stack :=
  ⟨_, o, hreach, hm, learns_settleAll o,
    fun x hx => Heap.outcome?_eq_some.2 (Heap.getElem?_settleAll_of_mem hx (hbusy x hx))⟩

/-- a procedure that ends with an error ends its walk -/
theorem ends_fail (e : EvalError) (hbusy : ∀ x ∈ rs, h[x]? = some (.busy ())) :
    Ends E h₀ rs (.comp (.fail e)) ⟨h, events, .run (.fail e), .walk rs :: stack⟩ stack :=
  ends_close hbusy (.head rfl (.head rfl .refl)) (.inl ⟨0, .fail e⟩)

/-- the code of a claimed cell, run for it and for the cells claimed before it -/
theorem ends_claimed (hplain : h₀.PlainCode E) (hwalks : ∀ fewer ⊂ todo, Walks E h₀ fewer) (hcode : h.CodeIn todo)
    (hagrees : Agrees E h₀ (.cell r) h) (hc : h[r]? = some (.pending c))
    (hbusy : ∀ x ∈ rs, h[x]? = some (.busy ())) :
    ∃ h' o, Reaches E ⟨h.setIfInBounds r (.busy ()), events, .run (E.body c), .walk (r :: rs) :: stack⟩
        ⟨h', events, .give o, stack⟩ ∧
      Means E h₀ (.cell r) o ∧ Learns E h₀ rs h h' ∧ ∀ x ∈ r :: rs, h'.outcome? x = some o := by
  obtain ⟨hc₀, hagrees'⟩ := hagrees.claimed hc
  have hbusy' : ∀ x ∈ r :: rs, (h.setIfInBounds r (.busy ()))[x]? = some (.busy ()) := by
    intro x hx
    rw [Heap.getElem?_claimed hc]
    split_ifs with hxr
    · rfl
    · exact hbusy x ((List.mem_cons.1 hx).resolve_left hxr)
  obtain ⟨h', o, hreach, hmeans, hlearns, hstored⟩ := hwalks (todo.erase r) (Finset.erase_ssubset (hcode r c hc)) _
    (hplain r c hc₀) _ (r :: rs) events stack (hcode.claimed hc) hagrees' hbusy'
  have hm := hmeans.opened hc₀
  exact ⟨h', o, hreach, hm, hlearns.claimed hc (hstored r List.mem_cons_self) hm, hstored⟩

/-- a demand ends with the meaning of its cell, which has no code then -/
theorem demand_ends (hplain : h₀.PlainCode E) (hwalks : ∀ fewer ⊂ todo, Walks E h₀ fewer) (hcode : h.CodeIn todo)
    (hagrees : Agrees E h₀ (.cell r) h) (events : List String) (stack : List (Frame Empty C V)) :
    ∃ h' o, Reaches E ⟨h, events, .demand r, stack⟩ ⟨h', events, .give o, stack⟩ ∧ Means E h₀ (.cell r) o ∧
      Learns E h₀ [] h h' ∧ ∀ c, h'[r]? ≠ some (.pending c) := by
  rcases h.claim_cases r with ⟨c, hc, heq⟩ | ⟨o, heq, -⟩
  · obtain ⟨h', o, hreach, hm, hlearns, hstored⟩ := ends_claimed hplain hwalks hcode hagrees hc (List.forall_mem_nil _)
    refine ⟨h', o, .head ?_ hreach, hm, hlearns, not_pending_of_outcome (hstored r List.mem_cons_self)⟩
    simp only [step, heq]
  · refine ⟨h, o, .head ?_ .refl, hagrees.means heq, .refl h, fun c hc => ?_⟩
    · simp only [step, heq]
    · rw [claim_of_pending hc] at heq
      cases heq

/-- every plain procedure ends, by induction on the cells that still have code and then on the procedure -/
theorem walk_ends (hplain : h₀.PlainCode E) (todo : Finset Ref) : Walks E h₀ todo := by
  induction todo using Finset.strongInduction with
  | H todo hwalks =>
    intro c hplain'
    induction hplain' with
    | value v =>
      intro h rs events stack hcode hagrees hbusy
      exact ends_close hbusy (.head rfl (.head rfl .refl)) (.inl ⟨0, .value v⟩)
    | fail e =>
      intro h rs events stack hcode hagrees hbusy
      exact ends_fail e hbusy
    | @code c hbody ih =>
      intro h rs events stack hcode hagrees hbusy
      obtain ⟨h', o, hreach, hm, hlearns, hstored⟩ := ih h rs events stack hcode (hagrees.needs .code) hbusy
      exact ⟨h', o, .head rfl hreach, hm.code, hlearns, hstored⟩
    | cell r =>
      intro h rs events stack hcode hagrees hbusy
      have hagrees' := hagrees.needs .cell
      rcases h.claim_cases r with ⟨c, hc, heq⟩ | ⟨o, heq, -⟩
      · obtain ⟨h', o, hreach, hm, hlearns, hstored⟩ := ends_claimed hplain hwalks hcode hagrees' hc hbusy
        refine ⟨h', o, .head rfl (.head ?_ hreach), hm.cell, hlearns, fun x hx => hstored x (List.mem_cons_of_mem r hx)⟩
        simp only [step, request, conclude, heq]
      · -- the cell is settled, or in progress: then it needs itself, and the black hole is its meaning
        refine ends_close hbusy (.head rfl (.head ?_ .refl)) (hagrees'.means heq).cell
        simp only [step, request, conclude, heq]
    | @force r k herrors hnext ih =>
      intro h rs events stack hcode hagrees hbusy
      obtain ⟨h₁, a, hreach, hm, hlearns, -⟩ :=
        demand_ends hplain hwalks hcode (hagrees.needs .first) events (.resume k :: .walk rs :: stack)
      have hbusy₁ : ∀ x ∈ rs, h₁[x]? = some (.busy ()) := fun x hx => hlearns.keeps_busy (hbusy x hx)
      -- the induction speaks of the rest after a value only; after an error nothing but `fail` is left
      have hrest : Ends E h₀ rs (.comp (k a)) ⟨h₁, events, .run (k a), .walk rs :: stack⟩ stack := by
        cases a with
        | ok v =>
          exact ih v h₁ rs events stack (hcode.learns hlearns) ((hagrees.learns hlearns).needs (.rest hm)) hbusy₁
        | error e =>
          rw [herrors e]
          exact ends_fail e hbusy₁
      obtain ⟨h', o, hreach', hm', hlearns', hstored⟩ := hrest
      exact ⟨h', o, .head rfl (hreach.trans (.head rfl hreach')), .force herrors hm hm', hlearns.trans hlearns',
        hstored⟩

/-! ## Forcing from outside -/

theorem step_of_halted (E : Engine Empty C V) {m : Machine C V} (hhalt : m.halted = true) : m.step E = m := by
  obtain ⟨heap, events, control, stack⟩ := m
  cases stack with
  | nil => cases control <;> first | rfl | simp [halted] at hhalt
  | cons frame stack => cases control <;> simp [halted] at hhalt

/-- a state that is reached and has nothing left to do is what the evaluator ends with, given enough steps -/
theorem run_of_reaches {m m' : Machine C V} (hreach : Reaches E m m') (hhalt : m'.halted = true) :
    ∃ steps, ∀ n ≥ steps, Machine.run E n m = some m' := by
  induction hreach using Relation.ReflTransGen.head_induction_on with
  | refl =>
    refine ⟨1, fun n hn => ?_⟩
    obtain ⟨k, rfl⟩ := Nat.exists_eq_add_of_le' hn
    simp [Machine.run, hhalt]
  | @head m m₁ hstep hrest ih =>
    obtain ⟨steps, hrun⟩ := ih
    subst hstep
    by_cases hm : m.halted = true
    · rw [step_of_halted E hm] at hrun
      exact ⟨steps, hrun⟩
    · refine ⟨steps + 1, fun n hn => ?_⟩
      obtain ⟨k, rfl⟩ := Nat.exists_eq_add_of_le' (Nat.le_of_add_left_le hn)
      simp only [Machine.run, hm]
      exact hrun k (by omega)

/-- the steps themselves do not depend on how many are allowed -/
theorem run_fuel (E : Engine Empty C V) (fuel n : Nat) (m : Machine C V) :
    Machine.run { E with fuel := fuel } n m = Machine.run E n m := by
  induction n generalizing m with
  | zero => rfl
  | succ n ih =>
    have hstep : m.step { E with fuel := fuel } = m.step E := rfl
    simp only [Machine.run, hstep, ih]

/-- more steps do not change where the evaluator ends -/
theorem run_mono {m m' : Machine C V} {n k : Nat} (hnk : n ≤ k) (hrun : Machine.run E n m = some m') :
    Machine.run E k m = some m' := by
  induction n generalizing m k with
  | zero => cases hrun
  | succ n ih =>
    obtain ⟨k, rfl⟩ := Nat.exists_eq_add_of_le' (Nat.le_of_add_left_le hnk)
    simp only [Machine.run] at hrun ⊢
    split_ifs at hrun ⊢
    · exact hrun
    · exact ih (by omega) hrun

/-- where the evaluator ends, it also ends from every state on the way -/
theorem run_along {m m' x : Machine C V} (hreach : Reaches E m m') {n : Nat} (hrun : Machine.run E n m = some x) :
    Machine.run E n m' = some x := by
  induction hreach using Relation.ReflTransGen.head_induction_on with
  | refl => exact hrun
  | @head m m₁ hstep hrest ih =>
    subst hstep
    apply ih
    cases n with
    | zero => cases hrun
    | succ n =>
      by_cases hm : m.halted = true
      · rw [step_of_halted E hm]
        exact hrun
      · simp only [Machine.run, hm] at hrun
        exact run_mono (Nat.le_succ n) hrun

end

end Machine

namespace Host

open Machine

variable {W : Type} {E : Engine Empty C V} {h₀ : Heap Unit C V}

/-- a force from outside comes to the meaning of its cell -/
theorem outcome_ends (hplain : h₀.PlainCode E) (s : Session W C V) (hknown : Learns E h₀ [] h₀ s.heap) (r : Ref) :
    ∃ o t steps, (∀ n ≥ steps, outcome { E with fuel := n } r s = .ok o t) ∧ Means E h₀ (.cell r) o ∧
      Learns E h₀ [] s.heap t.heap ∧ ∀ c, t.heap[r]? ≠ some (.pending c) := by
  obtain ⟨heap, events, world⟩ := s
  have hcode : heap.CodeIn (Finset.range heap.size) := fun i c hc =>
    Finset.mem_range.2 (Array.getElem?_eq_some_iff.1 hc).1
  have hagrees : Agrees E h₀ (.cell r) heap := fun i => (hknown i List.not_mem_nil).imp_right fun hi => .inl hi.2
  obtain ⟨h', o, hreach, hm, hlearns, hopened⟩ :=
    demand_ends hplain (fun fewer _ => walk_ends hplain fewer) hcode hagrees events []
  obtain ⟨steps, hrun⟩ := run_of_reaches hreach rfl
  refine ⟨o, ⟨h', events, world⟩, steps, fun n hn => ?_, hm, hlearns, hopened⟩
  simp [outcome, drive, run_fuel, hrun n hn, outcomeOf]

/-- so does each of a sequence of forces -/
theorem outcomes_end (hplain : h₀.PlainCode E) (rs : List Ref) (s : Session W C V)
    (hknown : Learns E h₀ [] h₀ s.heap) :
    ∃ os t steps, (∀ n ≥ steps, rs.mapM (outcome { E with fuel := n }) s = .ok os t) ∧
      Learns E h₀ [] s.heap t.heap ∧
      ∀ (i : Nat) (r : Ref), rs[i]? = some r →
        ∃ o, os[i]? = some o ∧ Means E h₀ (.cell r) o ∧ ∀ c, t.heap[r]? ≠ some (.pending c) := by
  induction rs generalizing s with
  | nil => exact ⟨[], s, 0, fun n _ => rfl, .refl _, by simp⟩
  | cons r rs ih =>
    obtain ⟨o, s', steps, hfirst, hm, hlearns, hopened⟩ := outcome_ends hplain s hknown r
    obtain ⟨os, t, steps', hrest, hlearns', hmeans⟩ := ih s' (hknown.trans hlearns)
    refine ⟨o :: os, t, max steps steps', fun n hn => ?_, hlearns.trans hlearns', fun i q hi => ?_⟩
    · have hn₁ := hfirst n (le_of_max_le_left hn)
      have hn₂ := hrest n (le_of_max_le_right hn)
      simp [List.mapM_cons, bind, EStateM.bind, hn₁, hn₂, pure, EStateM.pure]
    · cases i with
      | zero =>
        cases hi
        refine ⟨o, rfl, hm, fun c hc => ?_⟩
        -- the forces that follow give no cell its code back
        rcases hlearns' r List.not_mem_nil with hsame | ⟨⟨c', hc'⟩, -⟩
        · exact hopened c (hsame ▸ hc)
        · exact hopened c' hc'
      | succ i => exact hmeans i q hi

/-- **The order of forcing does not matter.** Take cells whose code is plain; they may depend on each other in
circles. Any two sequences of forces come to an end, and a cell forced in both answers with the same outcome in both
and keeps it. A cell that has an outcome after both, forced from outside or on the way, has the same one. -/
theorem force_order_irrelevant {s₁ s₂ : Session W C V} (hsame : s₂.heap = s₁.heap) (hplain : s₁.heap.PlainCode E)
    (rs₁ rs₂ : List Ref) :
    ∃ os₁ t₁ os₂ t₂ steps,
      (∀ n ≥ steps, rs₁.mapM (outcome { E with fuel := n }) s₁ = .ok os₁ t₁ ∧
        rs₂.mapM (outcome { E with fuel := n }) s₂ = .ok os₂ t₂) ∧
      (∀ (i j : Nat) (r : Ref), rs₁[i]? = some r → rs₂[j]? = some r → ∃ o, os₁[i]? = some o ∧ os₂[j]? = some o ∧
        ((∃ c, s₁.heap[r]? = some (.pending c)) → t₁.heap.outcome? r = some o ∧ t₂.heap.outcome? r = some o)) ∧
      ∀ r o₁ o₂, t₁.heap.outcome? r = some o₁ → t₂.heap.outcome? r = some o₂ → o₁ = o₂ := by
  obtain ⟨os₁, t₁, steps₁, hrun₁, hlearns₁, hmeans₁⟩ := outcomes_end hplain rs₁ s₁ (.refl _)
  obtain ⟨os₂, t₂, steps₂, hrun₂, hlearns₂, hmeans₂⟩ := outcomes_end hplain rs₂ s₂ (by rw [hsame]; exact .refl _)
  rw [hsame] at hlearns₂
  refine ⟨os₁, t₁, os₂, t₂, max steps₁ steps₂, fun n hn => ⟨hrun₁ n (le_of_max_le_left hn),
    hrun₂ n (le_of_max_le_right hn)⟩, fun i j r hi hj => ?_, fun r o₁ o₂ h₁ h₂ => ?_⟩
  · obtain ⟨o, ho, hm, hopened₁⟩ := hmeans₁ i r hi
    obtain ⟨o', ho', hm', hopened₂⟩ := hmeans₂ j r hj
    cases hm.unique hm'
    exact ⟨o, ho, ho', fun hcode => ⟨hlearns₁.outcome hcode hopened₁ hm, hlearns₂.outcome hcode hopened₂ hm⟩⟩
  · exact hlearns₁.outcome_unique hlearns₂ h₁ h₂

/-- three cells: 0 and 1 need each other, and 1 needs 2 before that, which comes to 7 -/
def circle : Engine Empty Nat Nat where
  body
    | 0 => .force 1 fun
      | .ok v => .done (.value (v + 1))
      | .error e => .fail e
    | 1 => .force 2 fun
      | .ok _ => .done (.cell 0)
      | .error e => .fail e
    | _ => .done (.value 7)
  parts _ := []
  fuel := 0

/-- 0 and 1 answer and end up the same whichever is forced first -/
theorem force_order_irrelevant_circle :
    let s : Session Unit Nat Nat := ⟨#[.pending 0, .pending 1, .pending 2], [], ()⟩
    ∃ os₁ t₁ os₂ t₂ steps,
      (∀ n ≥ steps, [0, 1].mapM (outcome { circle with fuel := n }) s = .ok os₁ t₁ ∧
        [2, 1, 0].mapM (outcome { circle with fuel := n }) s = .ok os₂ t₂) ∧
      (∃ o, os₁[0]? = some o ∧ os₂[2]? = some o ∧ t₁.heap.outcome? 0 = some o ∧ t₂.heap.outcome? 0 = some o) ∧
      ∃ o, os₁[1]? = some o ∧ os₂[1]? = some o ∧ t₁.heap.outcome? 1 = some o ∧ t₂.heap.outcome? 1 = some o := by
  intro s
  have hplain : ∀ c, Plain circle (circle.body c)
    | 0 => .force (fun _ => rfl) fun v => .value (v + 1)
    | 1 => .force (fun _ => rfl) fun _ => .cell 0
    | _ + 2 => .value 7
  obtain ⟨os₁, t₁, os₂, t₂, steps, hrun, hboth, -⟩ :=
    force_order_irrelevant (rfl : s.heap = s.heap) (fun _ c _ => hplain c) [0, 1] [2, 1, 0]
  obtain ⟨o, h₁, h₂, hstored⟩ := hboth 0 2 0 rfl rfl
  obtain ⟨x, h₃, h₄, hstored'⟩ := hboth 1 1 1 rfl rfl
  exact ⟨os₁, t₁, os₂, t₂, steps, hrun, ⟨o, h₁, h₂, hstored ⟨0, rfl⟩⟩, x, h₃, h₄, hstored' ⟨1, rfl⟩⟩

end Host

end ByNeed
