/-
How walks end.

A demand of a cell with code starts a walk. The walk claims the cell, runs its code, and goes on with the cell that the
code ends with, for as long as it finds code there. Code may force other cells on the way, cells of the same walk among
them: all this happens on the stack above the walk.
- `Inside.step_cases`: while a walk goes on, its frame stays where it is, with what waits for it below.
- `over_cases`: a walk is always in one of three phases: it goes on, it is cut off, or it has handed on its outcome.
- `Closed.follow`: where all code only leads to another cell, no cell that can be reached from the walk keeps its code.
- `walks_flatten`: one outcome is stored in every cell of the walk, and it comes from the last code. Over mere
  indirections it is a black hole if and only if a cell is met twice.
-/
import ByNeed.Proofs.Order

namespace ByNeed

variable {C V : Type}

namespace Machine

/-! ## The phases of a walk -/

/-- steps that are made while something stands on `base` -/
abbrev Over (E : Engine Empty C V) (base : List (Frame Empty C V)) : Machine C V → Machine C V → Prop :=
  Relation.ReflTransGen fun m m' => (∃ frame upper, m.stack = frame :: (upper ++ base)) ∧ m' = m.step E

/-- The walk that a demand of `r` starts on `base`, so far: `rs` are the cells that it has claimed, the latest first,
and in `m` the code of the latest has just been handed out. -/
inductive Walk (E : Engine Empty C V) (h : Heap Unit C V) (events : List String) (r : Ref)
    (base : List (Frame Empty C V)) : List Ref → Machine C V → Prop where
  | head {c : C} (hcode : h[r]? = some (.pending c)) :
      Walk E h events r base [r] ⟨h.setIfInBounds r (.busy ()), events, .run (E.body c), .walk [r] :: base⟩
  | link {rs : List Ref} {m : Machine C V} {h₁ : Heap Unit C V} {events₁ : List String} {q : Ref} {c : C}
      (hbefore : Walk E h events r base rs m)
      (hended : Over E base m ⟨h₁, events₁, .ended (.ok (.cell q)), .walk rs :: base⟩)
      (hcode : h₁[q]? = some (.pending c)) :
      Walk E h events r base (q :: rs)
        ⟨h₁.setIfInBounds q (.busy ()), events₁, .run (E.body c), .walk (q :: rs) :: base⟩

/-- the outcome of a walk whose last code has ended with `t` while the cells were as in `h` -/
inductive Decides (h : Heap Unit C V) : Outcome (Tail V) → Outcome V → Prop where
  | error (e : EvalError) : Decides h (.error e) (.error e)
  | value (v : V) : Decides h (.ok (.value v)) (.ok v)
  | stored {q : Ref} {o : Outcome V} (houtcome : h.outcome? q = some o) : Decides h (.ok (.cell q)) o
  | inProgress {q : Ref} (hbusy : h[q]? = some (.busy ())) : Decides h (.ok (.cell q)) (.error .blackHole)
  | nowhere {q : Ref} (hnone : h[q]? = none) : Decides h (.ok (.cell q)) (.error .blackHole)

/-- the walk with the cells `rs` goes on: its own code runs or has ended, or waits for something above it -/
inductive Inside (rs : List Ref) (base : List (Frame Empty C V)) : Machine C V → Prop where
  | running {h : Heap Unit C V} {events : List String} (c : Comp Empty C V (Next C V)) :
      Inside rs base ⟨h, events, .run c, .walk rs :: base⟩
  | ended {h : Heap Unit C V} {events : List String} (t : Outcome (Tail V)) :
      Inside rs base ⟨h, events, .ended t, .walk rs :: base⟩
  | nested {m : Machine C V} {upper : List (Frame Empty C V)} {k : Outcome V → Comp Empty C V (Next C V)}
      (hstack : m.stack = upper ++ .resume k :: .walk rs :: base) (hgoing : ∀ text, m.control ≠ .unwind text) :
      Inside rs base m

section

variable {E : Engine Empty C V} {m m' : Machine C V} {frame : Frame Empty C V} {rest base : List (Frame Empty C V)}
  {rs : List Ref} {h : Heap Unit C V} {events : List String} {r : Ref} {c : C} {o : Outcome V}

theorem request_stack (E : Engine Empty C V) (h : Heap Unit C V) (events : List String)
    (stack : List (Frame Empty C V)) (c : Comp Empty C V (Next C V)) :
    ∃ pre, (request E h events stack c).stack = pre ++ stack := by
  cases c with
  | done next => cases next <;> exact ⟨[], rfl⟩
  | force r k => exact ⟨[.resume k], rfl⟩
  | eval c k => exact ⟨[.resume k], rfl⟩
  | normalize v k => exact ⟨[.resume k], rfl⟩
  | fork permit c k => cases permit
  | _ => exact ⟨[], rfl⟩

/-- a step takes at most the uppermost frame -/
theorem step_below (E : Engine Empty C V) (hm : m.stack = frame :: rest) : ∃ pre, (m.step E).stack = pre ++ rest := by
  obtain ⟨h, events, control, stack⟩ := m
  subst hm
  cases control with
  | run c =>
    obtain ⟨pre, hpre⟩ := request_stack E h events (frame :: rest) c
    exact ⟨pre ++ [frame], by simpa [step] using hpre⟩
  | ended t =>
    cases frame with
    | resume k => rcases t with e | v | q <;> exact ⟨[.resume k], rfl⟩
    | visit top work => rcases t with e | v | q <;> exact ⟨[.visit top work], rfl⟩
    | walk claimed =>
      rcases t with e | v | q
      · exact ⟨[], rfl⟩
      · exact ⟨[], rfl⟩
      · rcases h.claim_cases q with ⟨c, -, heq⟩ | ⟨o, heq, -⟩
        · exact ⟨[.walk (q :: claimed)], by simp [step, conclude, heq]⟩
        · exact ⟨[], by simp [step, conclude, heq]⟩
  | give o =>
    cases frame with
    | visit top work => cases o <;> exact ⟨[], rfl⟩
    | resume | walk => exact ⟨[], rfl⟩
  | demand q =>
    rcases h.claim_cases q with ⟨c, -, heq⟩ | ⟨o, heq, -⟩
    · exact ⟨[.walk [q], frame], by simp [step, heq]⟩
    · exact ⟨[frame], by simp [step, heq]⟩
  | traverse top work =>
    cases work with
    | nil => exact ⟨[frame], rfl⟩
    | cons q work => exact ⟨[.visit top work, frame], rfl⟩
  | unwind text => exact ⟨[], rfl⟩

/-- a computation that waits goes on only when it is handed an outcome -/
theorem step_resume (E : Engine Empty C V) {k : Outcome V → Comp Empty C V (Next C V)}
    (hm : m.stack = .resume k :: rest) (hgoing : ∀ text, m.control ≠ .unwind text) :
    (∃ pre, (m.step E).stack = pre ++ .resume k :: rest) ∨
      ∃ o, m.step E = ⟨m.heap, m.events, .run (k o), rest⟩ := by
  obtain ⟨h, events, control, stack⟩ := m
  subst hm
  cases control with
  | run c => exact .inl (request_stack E h events (.resume k :: rest) c)
  | ended t => rcases t with e | v | q <;> exact .inl ⟨[], rfl⟩
  | give o => exact .inr ⟨o, rfl⟩
  | demand q =>
    rcases h.claim_cases q with ⟨c, -, heq⟩ | ⟨o, heq, -⟩
    · exact .inl ⟨[.walk [q]], by simp [step, heq]⟩
    · exact .inl ⟨[], by simp [step, heq]⟩
  | traverse top work =>
    cases work with
    | nil => exact .inl ⟨[], rfl⟩
    | cons q work => exact .inl ⟨[.visit top work], rfl⟩
  | unwind text => exact absurd rfl (hgoing text)

/-- A walk goes on until its own code has ended, or an abort cuts it off. -/
theorem Inside.step_cases (hinside : Inside rs base m) :
    Inside rs base (m.step E) ∨ (∃ text, (m.step E).control = .unwind text) ∨
      ∃ h events t, m = ⟨h, events, .ended t, .walk rs :: base⟩ := by
  by_cases hcut : ∃ text, (m.step E).control = .unwind text
  · exact .inr (.inl hcut)
  have hgoing : ∀ text, (m.step E).control ≠ .unwind text := fun text hc => hcut ⟨text, hc⟩
  cases hinside with
  | ended t => exact .inr (.inr ⟨_, _, t, rfl⟩)
  | running c =>
    left
    cases c with
    | done next =>
      cases next with
      | code c => exact .running _
      | value v => exact .ended _
      | cell q => exact .ended _
    | fail e => exact .ended _
    | abort text => exact absurd rfl (hgoing text)
    | force q k => exact .nested (List.nil_append _).symm hgoing
    | eval c k => exact .nested (List.nil_append _).symm hgoing
    | normalize v k => exact .nested (List.nil_append _).symm hgoing
    | fork permit c k => cases permit
    | peek | ready | delay | emit => exact .running _
  | @nested _ upper k hstack hunwound =>
    -- with nothing left above it, the waiting code of the walk itself goes on
    left
    cases upper with
    | nil =>
      rcases step_resume E hstack hunwound with ⟨pre, hpre⟩ | ⟨o, heq⟩
      · exact .nested hpre hgoing
      · rw [heq]
        exact .running _
    | cons frame upper =>
      rw [List.cons_append] at hstack
      obtain ⟨pre, hpre⟩ := step_below E hstack
      rw [← List.append_assoc] at hpre
      exact .nested hpre hgoing

theorem Inside.on_base (hinside : Inside rs base m) : ∃ frame upper, m.stack = frame :: (upper ++ base) := by
  cases hinside with
  | running c => exact ⟨.walk rs, [], rfl⟩
  | ended t => exact ⟨.walk rs, [], rfl⟩
  | @nested _ upper k hstack hgoing =>
    cases upper with
    | nil => exact ⟨.resume k, [.walk rs], hstack⟩
    | cons frame upper => exact ⟨frame, upper ++ [.resume k, .walk rs], by simpa using hstack⟩

/-- the walk has handed its outcome to what waits below, and stored it in all its cells -/
def Returned (E : Engine Empty C V) (h : Heap Unit C V) (events : List String) (r : Ref)
    (base : List (Frame Empty C V)) (m : Machine C V) : Prop :=
  ∃ rs m₁ h₁ t o, Walk E h events r base rs m₁ ∧ Over E base m₁ ⟨h₁, m.events, .ended t, .walk rs :: base⟩ ∧
    Decides h₁ t o ∧ m = ⟨h₁.settleAll o rs, m.events, .give o, base⟩

/-- where the code of a walk ends, the walk goes on with a cell that has code, or stores what it ended with -/
theorem step_ended_cases (E : Engine Empty C V) (h : Heap Unit C V) (events : List String) (t : Outcome (Tail V))
    (rs : List Ref) (base : List (Frame Empty C V)) :
    (∃ q c, t = .ok (.cell q) ∧ h[q]? = some (.pending c) ∧ step E ⟨h, events, .ended t, .walk rs :: base⟩ =
      ⟨h.setIfInBounds q (.busy ()), events, .run (E.body c), .walk (q :: rs) :: base⟩) ∨
    ∃ o, Decides h t o ∧
      step E ⟨h, events, .ended t, .walk rs :: base⟩ = ⟨h.settleAll o rs, events, .give o, base⟩ := by
  rcases t with e | v | q
  · exact .inr ⟨_, .error e, rfl⟩
  · exact .inr ⟨_, .value v, rfl⟩
  · rcases h.claim_cases q with ⟨c, hcode, heq⟩ | ⟨o, heq, hanswer⟩
    · exact .inl ⟨q, c, rfl, hcode, by simp only [step, conclude, heq]⟩
    · refine .inr ⟨o, ?_, by simp only [step, conclude, heq]⟩
      rcases hanswer with hstored | ⟨rfl, hbusy | houtside⟩
      · exact .stored hstored
      · exact .inProgress hbusy
      · exact .nowhere houtside

/-- Where the last code of a walk ends, the walk goes on with another cell or returns. -/
theorem Walk.ended_cases {m₁ : Machine C V} {t : Outcome (Tail V)} {h₁ : Heap Unit C V} {events₁ : List String}
    (hwalk : Walk E h events r base rs m₁) (hway : Over E base m₁ ⟨h₁, events₁, .ended t, .walk rs :: base⟩) :
    (∃ q, Walk E h events r base (q :: rs) (step E ⟨h₁, events₁, .ended t, .walk rs :: base⟩) ∧
      Inside (q :: rs) base (step E ⟨h₁, events₁, .ended t, .walk rs :: base⟩)) ∨
      Returned E h events r base (step E ⟨h₁, events₁, .ended t, .walk rs :: base⟩) := by
  rcases step_ended_cases E h₁ events₁ t rs base with ⟨q, c, rfl, hcode, heq⟩ | ⟨o, hdecides, heq⟩
  · rw [heq]
    exact .inl ⟨q, hwalk.link hway hcode, .running _⟩
  · rw [heq]
    exact .inr ⟨rs, m₁, h₁, _, o, hwalk, hway, hdecides, rfl⟩

/-- **The phases of a walk.** It goes on, it is cut off, or it has returned. -/
theorem over_cases (hcode : h[r]? = some (.pending c))
    (hway : Over E base ⟨h.setIfInBounds r (.busy ()), events, .run (E.body c), .walk [r] :: base⟩ m) :
    (∃ rs m₁, Walk E h events r base rs m₁ ∧ Over E base m₁ m ∧ Inside rs base m) ∨
      (∃ text, m.control = .unwind text) ∨ Returned E h events r base m := by
  induction hway with
  | refl => exact .inl ⟨[r], _, .head hcode, .refl, .running _⟩
  | @tail m m' hbefore hnext ih =>
    obtain ⟨⟨frame, upper, hstack⟩, rfl⟩ := hnext
    rcases ih with ⟨rs, m₁, hwalk, hway, hinside⟩ | ⟨text, hunwound⟩ | ⟨rs, m₁, h₁, t, o, -, -, -, hm⟩
    · rcases hinside.step_cases (E := E) with hagain | hcut | ⟨h₁, events₁, t, rfl⟩
      · exact .inl ⟨rs, m₁, hwalk, hway.tail ⟨⟨frame, upper, hstack⟩, rfl⟩, hagain⟩
      · exact .inr (.inl hcut)
      · rcases hwalk.ended_cases hway with ⟨q, hlink, hagain⟩ | hreturned
        · exact .inl ⟨q :: rs, _, hlink, .refl, hagain⟩
        · exact .inr (.inr hreturned)
    · refine .inr (.inl ⟨text, ?_⟩)
      obtain ⟨h₁, events₁, control, _⟩ := m
      cases hunwound
      cases hstack
      rfl
    · -- nothing stands on `base` any more
      rw [hm] at hstack
      have hlength := congrArg List.length hstack
      simp at hlength
      omega

theorem Walk.getLast? {m₁ : Machine C V} (hwalk : Walk E h events r base rs m₁) : rs.getLast? = some r := by
  induction hwalk with
  | head hcode => rfl
  | link hbefore hended hcode ih => rw [List.getLast?_cons, ih]; rfl

/-- no step takes a cell away -/
theorem size_step (E : Engine Empty C V) (m : Machine C V) : m.heap.size ≤ (m.step E).heap.size := by
  obtain ⟨d, heffect, -⟩ := step_effect E m
  generalize (m.step E).heap = h', m.held = held, (m.step E).held = held' at heffect
  cases heffect with
  | quiet hsame => exact le_rfl
  | make hfresh => rw [Array.size_push]; exact Nat.le_succ _
  | claim hcode => rw [Array.size_setIfInBounds]
  | settle o rs qs => rw [Heap.size_settleAll]

theorem Over.size_le (hway : Over E base m m') : m.heap.size ≤ m'.heap.size := by
  induction hway with
  | refl => exact le_rfl
  | tail _ hnext ih =>
    obtain ⟨-, rfl⟩ := hnext
    exact ih.trans (size_step E _)

/-- what a walk has claimed are cells of the heap -/
theorem Walk.inside {m₁ : Machine C V} (hwalk : Walk E h events r base rs m₁) : ∀ q ∈ rs, q < m₁.heap.size := by
  induction hwalk with
  | head hcode =>
    intro q hq
    rw [List.mem_singleton.1 hq, Array.size_setIfInBounds]
    exact (Array.getElem?_eq_some_iff.1 hcode).1
  | link hbefore hended hcode ih =>
    intro q hq
    rw [Array.size_setIfInBounds]
    rcases List.mem_cons.1 hq with rfl | hq
    · exact (Array.getElem?_eq_some_iff.1 hcode).1
    · exact (ih q hq).trans_le hended.size_le

/-- the demand of a cell with code starts a walk -/
theorem step_demand_of_code (hcode : h[r]? = some (.pending c)) (events : List String)
    (stack : List (Frame Empty C V)) :
    step E ⟨h, events, .demand r, stack⟩ =
      ⟨h.setIfInBounds r (.busy ()), events, .run (E.body c), .walk [r] :: stack⟩ := by
  simp only [step, claim_of_pending hcode]

/-- a walk from outside that comes to a halt has gone on until then -/
theorem over_of_run {n : Nat} (hcode : h[r]? = some (.pending c))
    (hbefore : Over E [] ⟨h.setIfInBounds r (.busy ()), events, .run (E.body c), [.walk [r]]⟩ m)
    (hrun : Machine.run E n m = some m') :
    Over E [] ⟨h.setIfInBounds r (.busy ()), events, .run (E.body c), [.walk [r]]⟩ m' := by
  induction n generalizing m with
  | zero => cases hrun
  | succ n ih =>
    simp only [Machine.run] at hrun
    split_ifs at hrun with hhalt
    · cases hrun
      exact hbefore
    · have hstack : ∃ frame upper, m.stack = frame :: (upper ++ []) := by
        rcases over_cases hcode hbefore with ⟨rs, m₁, -, -, hinside⟩ | ⟨text, hunwound⟩ |
          ⟨rs, m₁, h₁, t, o, -, -, -, hm⟩
        · exact hinside.on_base
        · obtain ⟨h₁, events₁, control, stack⟩ := m
          cases hunwound
          cases stack with
          | nil => exact absurd rfl hhalt
          | cons frame upper => exact ⟨frame, upper, by rw [List.append_nil]⟩
        · rw [hm] at hhalt
          exact absurd rfl hhalt
      exact ih (hbefore.tail ⟨hstack, rfl⟩) hrun

end

/-! ## Indirections -/

end Machine

namespace Heap

/-- the code of `r` does nothing but end with `q` -/
def Leads (E : Engine Empty C V) (h : Heap Unit C V) (r q : Ref) : Prop :=
  ∃ c, h[r]? = some (.pending c) ∧ E.body c = .done (.cell q)

/-- every cell leads to another one, or has an outcome that is no black hole -/
def Indirect (E : Engine Empty C V) (h : Heap Unit C V) : Prop :=
  ∀ r < h.size, (∃ q < h.size, h.Leads E r q) ∨ ∃ o, h.outcome? r = some o ∧ o ≠ .error .blackHole

/-- whoever follows the cells from `r` on meets one of them twice -/
def Revisits (E : Engine Empty C V) (h : Heap Unit C V) (r : Ref) : Prop :=
  ∃ q, Relation.ReflTransGen (h.Leads E) r q ∧ Relation.TransGen (h.Leads E) q q

end Heap

section

variable {E : Engine Empty C V} {h h' : Heap Unit C V} {r q : Ref} {o : Outcome V} {n : Nat}

theorem Heap.Indirect.body (hindirect : h.Indirect E) {c : C} (hcode : h[r]? = some (.pending c)) :
    ∃ q, E.body c = .done (.cell q) := by
  rcases hindirect r (Array.getElem?_eq_some_iff.1 hcode).1 with ⟨q, -, c', hcode', hbody⟩ | ⟨o, hstored, -⟩
  · rw [hcode] at hcode'
    cases hcode'
    exact ⟨q, hbody⟩
  · exact absurd hcode (not_pending_of_outcome hstored c)

theorem Heap.Indirect.plain (hindirect : h.Indirect E) : h.PlainCode E := by
  intro r c hcode
  obtain ⟨q, hbody⟩ := hindirect.body hcode
  rw [hbody]
  exact .cell q

theorem Heap.Leads.unique (hleads : h.Leads E r q) {p : Ref} (hleads' : h.Leads E r p) : q = p := by
  obtain ⟨c, hcode, hbody⟩ := hleads
  obtain ⟨c', hcode', hbody'⟩ := hleads'
  rw [hcode] at hcode'
  cases hcode'
  rw [hbody] at hbody'
  cases hbody'
  rfl

theorem Heap.Indirect.follows_lt (hindirect : h.Indirect E) (hr : r < h.size)
    (hfollows : Relation.ReflTransGen (h.Leads E) r q) : q < h.size := by
  induction hfollows with
  | refl => exact hr
  | @tail x y _ hleads ih =>
    rcases hindirect x ih with ⟨p, hp, hleads'⟩ | ⟨o, hstored, -⟩
    · rwa [hleads.unique hleads']
    · obtain ⟨c, hcode, -⟩ := hleads
      exact absurd hcode (not_pending_of_outcome hstored c)

/-- what leads to a cell gives what the cell gives, with more work -/
theorem Heap.Leads.gives (hleads : h.Leads E r q) (hgives : Gives E h n (.cell r) o) :
    ∃ m < n, Gives E h m (.cell q) o := by
  obtain ⟨c, hcode, hbody⟩ := hleads
  cases hgives with
  | stored hanswer => rw [claim_of_pending hcode] at hanswer; cases hanswer
  | opened hcode' hrest =>
    rw [hcode] at hcode'
    cases hcode'
    rw [hbody] at hrest
    cases hrest with
    | cell htail => exact ⟨_, by omega, htail⟩

theorem Heap.Leads.gives_of (hleads : h.Leads E r q) (hgives : Gives E h n (.cell q) o) :
    Gives E h (n + 2) (.cell r) o := by
  obtain ⟨c, hcode, hbody⟩ := hleads
  refine .opened hcode ?_
  rw [hbody]
  exact .cell hgives

theorem gives_along (hfollows : Relation.ReflTransGen (h.Leads E) r q) (hgives : Gives E h n (.cell r) o) :
    ∃ m, Gives E h m (.cell q) o := by
  induction hfollows with
  | refl => exact ⟨n, hgives⟩
  | tail _ hleads ih =>
    obtain ⟨m, hgives'⟩ := ih
    obtain ⟨l, -, hgives''⟩ := hleads.gives hgives'
    exact ⟨l, hgives''⟩

theorem needs_of_cycle (hcycle : Relation.TransGen (h.Leads E) r q) : Needs E h (.cell r) (.cell q) := by
  have hone : ∀ {x y}, h.Leads E x y → Needs E h (.cell x) (.cell y) := by
    intro x y hleads n o hgives
    obtain ⟨m, hm, hgives'⟩ := hleads.gives hgives
    exact ⟨m, hm, o, hgives'⟩
  induction hcycle with
  | single hleads => exact hone hleads
  | tail _ hleads ih => exact ih.trans (hone hleads)

/-- A cell from which another is met twice gives nothing. -/
theorem Heap.Revisits.gives_nothing (hrevisits : h.Revisits E r) : ¬ Gives E h n (.cell r) o := by
  obtain ⟨q, hfollows, hcycle⟩ := hrevisits
  intro hgives
  obtain ⟨m, hgives'⟩ := gives_along hfollows hgives
  exact (needs_of_cycle hcycle).gives_nothing m o hgives'

/-- what a cell gives in the end is stored somewhere, so it is no black hole -/
theorem Heap.Indirect.gives_no_hole (hindirect : h.Indirect E) (hr : r < h.size) (hgives : Gives E h n (.cell r) o) :
    o ≠ .error .blackHole := by
  induction n using Nat.strongRecOn generalizing r with
  | ind n ih =>
    rcases hindirect r hr with ⟨q, hq, hleads⟩ | ⟨x, hstored, hhole⟩
    · obtain ⟨m, hm, hgives'⟩ := hleads.gives hgives
      exact ih m hm hq hgives'
    · have hhere : Gives E h 0 (.cell r) x := .stored (by rw [Heap.claim_of_outcome hstored])
      rw [hgives.unique hhere]
      exact hhole

/-- Cells that give nothing lead from one to the next for ever, so that one of them is met twice. -/
theorem Heap.Indirect.revisits (hindirect : h.Indirect E) (hr : r < h.size)
    (hnothing : ∀ n o, ¬ Gives E h n (.cell r) o) : h.Revisits E r := by
  have honward : ∀ x : {x : Fin h.size // ∀ n o, ¬ Gives E h n (.cell x) o},
      ∃ y : {y : Fin h.size // ∀ n o, ¬ Gives E h n (.cell y) o}, h.Leads E x.1 y.1 := by
    rintro ⟨x, hx⟩
    rcases hindirect x x.2 with ⟨y, hy, hleads⟩ | ⟨o, hstored, -⟩
    · exact ⟨⟨⟨y, hy⟩, fun n o hgives => hx _ o (hleads.gives_of hgives)⟩, hleads⟩
    · exact absurd (.stored (by rw [Heap.claim_of_outcome hstored])) (hx 0 o)
  -- following `next` from `r` for ever stays among finitely many cells
  choose next hleads using honward
  let path (i : Nat) := next^[i] ⟨⟨r, hr⟩, hnothing⟩
  have hstep : ∀ i, h.Leads E (path i).1 (path (i + 1)).1 := by
    intro i
    simp only [path, Function.iterate_succ_apply']
    exact hleads _
  have honto : ∀ i j, Relation.ReflTransGen (h.Leads E) (path i).1 (path (i + j)).1 := by
    intro i j
    induction j with
    | zero => exact .refl
    | succ j ih => exact ih.tail (hstep (i + j))
  obtain ⟨i, j, hij, hsame⟩ : ∃ i j, i < j ∧ path i = path j := by
    obtain ⟨i, j, hne, hsame⟩ := Finite.exists_ne_map_eq_of_infinite path
    rcases Nat.lt_or_gt_of_ne hne with hlt | hlt
    · exact ⟨i, j, hlt, hsame⟩
    · exact ⟨j, i, hlt, hsame.symm⟩
  have hstart : Relation.ReflTransGen (h.Leads E) r (path i).1 := by
    have := honto 0 i
    rwa [Nat.zero_add] at this
  have hback : Relation.ReflTransGen (h.Leads E) (path (i + 1)).1 (path i).1 := by
    have := honto (i + 1) (j - (i + 1))
    rwa [Nat.add_sub_cancel' hij, ← hsame] at this
  exact ⟨(path i).1, hstart, .head' (hstep i) hback⟩

/-- Over indirections a cell means a black hole if and only if following it meets a cell twice. -/
theorem Heap.Indirect.means_hole_iff (hindirect : h.Indirect E) (hr : r < h.size) (hmeans : Means E h (.cell r) o) :
    o = .error .blackHole ↔ h.Revisits E r := by
  constructor
  · intro hhole
    refine hindirect.revisits hr fun n x hgives => ?_
    have := hindirect.gives_no_hole hr hgives
    rw [hmeans.eq_of_gives hgives] at hhole
    exact this hhole
  · intro hrevisits
    rcases hmeans with ⟨n, hgives⟩ | ⟨hhole, -⟩
    · exact absurd hgives hrevisits.gives_nothing
    · exact hhole

/-- all cells that are met from `r` on mean the same -/
theorem means_along (hfollows : Relation.ReflTransGen (h.Leads E) r q) (hmeans : Means E h (.cell r) o) :
    Means E h (.cell q) o := by
  induction hfollows with
  | refl => exact hmeans
  | tail _ hleads ih =>
    refine ih.congr fun x => ⟨fun ⟨n, hgives⟩ => ?_, fun ⟨n, hgives⟩ => ⟨n + 2, hleads.gives_of hgives⟩⟩
    obtain ⟨m, -, hgives'⟩ := hleads.gives hgives
    exact ⟨m, hgives'⟩

end

/-! ## No code is left on a walk -/

/-- the cell has no code, or none any more -/
def Heap.Opened (h : Heap Unit C V) (r : Ref) : Prop := ∀ c, h[r]? ≠ some (.pending c)

/-- Cells that have been opened lead to opened cells, but for those that are excepted; the code that is left is that
of `h₀`. -/
structure Closed (E : Engine Empty C V) (h₀ : Heap Unit C V) (excepted : Ref → Prop) (h : Heap Unit C V) : Prop where
  onward : ∀ {x y : Ref}, h₀.Leads E x y → h.Opened x → h.Opened y ∨ excepted y
  code : ∀ {x : Ref} {c : C}, h[x]? = some (.pending c) → h₀[x]? = some (.pending c)

namespace Closed

open Machine

variable {E : Engine Empty C V} {h₀ h h' : Heap Unit C V} {r q : Ref} {c : C} {rs : List Ref} {todo : Finset Ref}
  {excepted : Ref → Prop}

theorem opened_of_answer {o : Outcome V} (hanswer : h.claim q = (.outcome o, h)) : h.Opened q := by
  intro c hc
  rw [claim_of_pending hc] at hanswer
  cases hanswer

/-- claiming a cell excepts the one that it leads to, and no longer the cell itself -/
theorem claimed (hclosed : Closed E h₀ (· = r) h) (hcode : h[r]? = some (.pending c))
    (hbody : E.body c = .done (.cell q)) : Closed E h₀ (· = q) (h.setIfInBounds r (.busy ())) := by
  have hopened : ∀ {x}, h.Opened x ∨ x = r → Heap.Opened (h.setIfInBounds r (.busy ())) x := by
    intro x hx c'
    rw [Heap.getElem?_claimed hcode]
    split_ifs with hxr
    · simp
    · exact hx.resolve_right hxr c'
  refine ⟨fun {x y} hleads hx => ?_, fun {x c'} hc => ?_⟩
  · by_cases hxr : x = r
    · subst hxr
      exact .inr (hleads.unique ⟨c, hclosed.code hcode, hbody⟩)
    · have hx' : h.Opened x := by
        intro c' hc'
        refine hx c' ?_
        rw [Heap.getElem?_claimed hcode, if_neg hxr, hc']
      exact .inl (hopened (hclosed.onward hleads hx'))
  · rw [Heap.getElem?_claimed hcode] at hc
    split_ifs at hc
    · cases hc
    · exact hclosed.code hc

/-- storing an outcome in cells that are open leaves the same cells open -/
theorem settled (hclosed : Closed E h₀ excepted h) (hopened : ∀ x ∈ rs, h.Opened x) (o : Outcome V) :
    Closed E h₀ excepted (h.settleAll o rs) := by
  have hsame : ∀ {x}, (h.settleAll o rs).Opened x ↔ h.Opened x := by
    intro x
    by_cases hx : x ∈ rs
    · refine ⟨fun _ => hopened x hx, fun _ c hc => ?_⟩
      rw [Heap.getElem?_settleAll] at hc
      split_ifs at hc
      · exact Cell.ofOutcome_ne_pending o c (Option.some.inj hc)
      · exact hopened x hx c hc
    · simp only [Heap.Opened, Heap.getElem?_settleAll_of_notMem hx]
  refine ⟨fun hleads hx => ?_, fun {x c} hc => ?_⟩
  · rw [hsame] at hx ⊢
    exact hclosed.onward hleads hx
  · have hx : x ∉ rs := by
      intro hx
      exact hsame.2 (hopened x hx) c hc
    rw [Heap.getElem?_settleAll_of_notMem hx] at hc
    exact hclosed.code hc

theorem except (hclosed : Closed E h₀ excepted h) (hopened : ∀ x, excepted x → h.Opened x) :
    Closed E h₀ (fun _ => False) h :=
  ⟨fun hleads hx => .inl ((hclosed.onward hleads hx).elim id (hopened _)), hclosed.code⟩

/-- A walk follows the cells until it comes to one that is open. -/
theorem follow (hindirect : h₀.Indirect E) (hcode : h.CodeIn todo) (hclosed : Closed E h₀ (· = q) h)
    (hopened : ∀ x ∈ rs, h.Opened x) (events : List String) (stack : List (Frame Empty C V)) :
    ∃ h' o, Reaches E ⟨h, events, .ended (.ok (.cell q)), .walk rs :: stack⟩ ⟨h', events, .give o, stack⟩ ∧
      Closed E h₀ (fun _ => False) h' := by
  induction todo using Finset.strongInduction generalizing h rs q with
  | H todo ih =>
    rcases h.claim_cases q with ⟨c, hc, heq⟩ | ⟨o, heq, -⟩
    · obtain ⟨y, hbody⟩ := hindirect.body (hclosed.code hc)
      have hopened' : ∀ x ∈ q :: rs, Heap.Opened (h.setIfInBounds q (.busy ())) x := by
        intro x hx c'
        rw [Heap.getElem?_claimed hc]
        split_ifs with hxq
        · simp
        · exact hopened x ((List.mem_cons.1 hx).resolve_left hxq) c'
      obtain ⟨h', o, hreach, hclosed'⟩ := ih (todo.erase q) (Finset.erase_ssubset (hcode q c hc)) (hcode.claimed hc)
        (hclosed.claimed hc hbody) hopened'
      have hclaims : step E ⟨h, events, .ended (.ok (.cell q)), .walk rs :: stack⟩ =
          ⟨h.setIfInBounds q (.busy ()), events, .run (.done (.cell y)), .walk (q :: rs) :: stack⟩ := by
        simp only [step, conclude, heq, hbody]
      exact ⟨h', o, .head hclaims.symm (.head rfl hreach), hclosed'⟩
    · have hq : h.Opened q := opened_of_answer heq
      refine ⟨h.settleAll o rs, o, .single ?_, (hclosed.except fun x hx => hx ▸ hq).settled hopened o⟩
      simp only [step, conclude, heq]

/-- So does a demand, which leaves its cell open. -/
theorem demand (hindirect : h₀.Indirect E) (hclosed : Closed E h₀ (fun _ => False) h) (r : Ref) (events : List String)
    (stack : List (Frame Empty C V)) :
    ∃ h' o, Reaches E ⟨h, events, .demand r, stack⟩ ⟨h', events, .give o, stack⟩ ∧
      Closed E h₀ (fun _ => False) h' := by
  rcases h.claim_cases r with ⟨c, hc, heq⟩ | ⟨o, heq, -⟩
  · obtain ⟨y, hbody⟩ := hindirect.body (hclosed.code hc)
    have hcode : Heap.CodeIn (h.setIfInBounds r (.busy ())) (Finset.range h.size) := by
      intro i c' hi
      have := (Array.getElem?_eq_some_iff.1 hi).1
      rw [Array.size_setIfInBounds] at this
      exact Finset.mem_range.2 this
    have hopened : ∀ x ∈ [r], Heap.Opened (h.setIfInBounds r (.busy ())) x := by
      intro x hx c'
      rw [Heap.getElem?_claimed hc, if_pos (List.mem_singleton.1 hx)]
      simp
    have hclosed' : Closed E h₀ (· = r) h :=
      ⟨fun hleads hx => (hclosed.onward hleads hx).imp_right False.elim, hclosed.code⟩
    obtain ⟨h', o, hreach, hclosed''⟩ := follow hindirect hcode (hclosed'.claimed hc hbody) hopened events stack
    have hclaims : step E ⟨h, events, .demand r, stack⟩ =
        ⟨h.setIfInBounds r (.busy ()), events, .run (.done (.cell y)), .walk [r] :: stack⟩ := by
      simp only [step, heq, hbody]
    exact ⟨h', o, .head hclaims.symm (.head rfl hreach), hclosed''⟩
  · refine ⟨h, o, .single ?_, hclosed⟩
    simp only [step, heq]

/-- open cells lead to open cells only -/
theorem opened_along (hclosed : Closed E h₀ (fun _ => False) h) (hfollows : Relation.ReflTransGen (h₀.Leads E) r q)
    (hopened : h.Opened r) : h.Opened q := by
  induction hfollows with
  | refl => exact hopened
  | tail _ hleads ih => exact (hclosed.onward hleads ih).resolve_right id

end Closed

/-! ## Walks flatten -/

namespace Host

open Machine

variable {W : Type} {E : Engine Empty C V} {s s' : Session W C V} {r : Ref} {o : Outcome V}

/-- a force from outside of a cell with code is a walk -/
theorem over_of_outcome {c : C} (hcode : s.heap[r]? = some (.pending c)) (hreturned : outcome E r s = .ok o s') :
    Over E [] (step E ⟨s.heap, s.events, .demand r, []⟩) ⟨s'.heap, s'.events, .give o, []⟩ := by
  obtain ⟨heap, events, world⟩ := s
  simp only [outcome, drive] at hreturned
  cases hrun : Machine.run E E.fuel ⟨heap, events, .demand r, []⟩ with
  | none => simp [hrun] at hreturned
  | some m =>
    have hhalt := (run_some hrun .start).1
    obtain ⟨h', events', control, stack⟩ := m
    cases control <;> simp [hrun, outcomeOf] at hreturned
    obtain ⟨rfl, rfl⟩ := hreturned
    cases stack with
    | cons frame stack => cases hhalt
    | nil =>
      rw [step_demand_of_code hcode]
      refine over_of_run hcode .refl (run_along (.single ?_) hrun)
      rw [step_demand_of_code hcode]

/-- forces over indirections leave no code on their walks -/
theorem outcomes_close {h₀ : Heap Unit C V} (hindirect : h₀.Indirect E) (rs : List Ref) (s : Session W C V)
    (hclosed : Closed E h₀ (fun _ => False) s.heap) :
    ∃ os t steps, (∀ n ≥ steps, rs.mapM (outcome { E with fuel := n }) s = .ok os t) ∧
      Closed E h₀ (fun _ => False) t.heap := by
  induction rs generalizing s with
  | nil => exact ⟨[], s, 0, fun n _ => rfl, hclosed⟩
  | cons r rs ih =>
    obtain ⟨heap, events, world⟩ := s
    obtain ⟨h', o, hreach, hclosed'⟩ := hclosed.demand hindirect r events []
    obtain ⟨steps, hrun⟩ := run_of_reaches hreach rfl
    obtain ⟨os, t, steps', hrest, hclosed''⟩ := ih ⟨h', events, world⟩ hclosed'
    refine ⟨o :: os, t, max steps steps', fun n hn => ?_, hclosed''⟩
    have hfirst : outcome { E with fuel := n } r ⟨heap, events, world⟩ = .ok o ⟨h', events, world⟩ := by
      simp [outcome, drive, run_fuel, hrun n (le_of_max_le_left hn), outcomeOf]
    have hlater := hrest n (le_of_max_le_right hn)
    simp [List.mapM_cons, bind, EStateM.bind, hfirst, hlater, pure, EStateM.pure]

/-- over indirections, every cell that is met from a forced one has the outcome of the force -/
theorem outcomes_flatten (hindirect : s.heap.Indirect E) (rs : List Ref) :
    ∃ os t steps, (∀ n ≥ steps, rs.mapM (outcome { E with fuel := n }) s = .ok os t) ∧
      ∀ (i : Nat) (r : Ref), rs[i]? = some r → ∃ o, os[i]? = some o ∧ Means E s.heap (.cell r) o ∧
        (r < s.heap.size → ∀ q, Relation.ReflTransGen (s.heap.Leads E) r q → t.heap[q]? = some (.ofOutcome o)) := by
  obtain ⟨os, t, steps, hrun, hlearns, hmeans⟩ := outcomes_end hindirect.plain rs s (.refl _)
  have hclosed : Closed E s.heap (fun _ => False) s.heap := by
    refine ⟨fun hleads hopened => ?_, id⟩
    obtain ⟨c, hcode, -⟩ := hleads
    exact absurd hcode (hopened c)
  obtain ⟨os', t', steps', hrun', hclosed'⟩ := outcomes_close hindirect rs s hclosed
  have hsame := (hrun _ (le_max_left steps steps')).symm.trans (hrun' _ (le_max_right steps steps'))
  cases hsame
  refine ⟨os, t, steps, hrun, fun i r hi => ?_⟩
  obtain ⟨o, ho, hm, hopened⟩ := hmeans i r hi
  refine ⟨o, ho, hm, fun hr q hfollows => ?_⟩
  have hmq := means_along hfollows hm
  have hopenq := hclosed'.opened_along hfollows hopened
  rcases hlearns q List.not_mem_nil with hsame | ⟨-, x, hstored, hmx⟩
  · rcases hindirect q (hindirect.follows_lt hr hfollows) with ⟨p, -, c, hcode, -⟩ | ⟨x, hstored, -⟩
    · exact absurd (hsame.trans hcode) (hopenq c)
    · have hhere : Gives E s.heap 0 (.cell q) x := .stored (by rw [Heap.claim_of_outcome hstored])
      rw [hsame, hmq.eq_of_gives hhere]
      exact Heap.outcome?_eq_some.1 hstored
  · rw [hmq.unique hmx]
    exact Heap.outcome?_eq_some.1 hstored

end Host

namespace Machine

/-- **Walks flatten.** When the demand of a cell with code comes back, whatever waits for it below, one outcome has been
stored in all the cells that its walk has claimed, from the demanded cell on. It is the error or the value that the last
of their code ended with, or the outcome of the cell that it ended with, or a black hole if that cell was in progress.
A force from outside is such a demand. If all code does no more than lead to another cell, every sequence of forces
comes to an end. A force gives a black hole if and only if following the cells from the forced one meets a cell twice;
and all the cells that are met on the way have the outcome of the force, those before a cycle too. -/
theorem walks_flatten (E : Engine Empty C V) :
    (∀ (h h' : Heap Unit C V) (events events' : List String) (r : Ref) (c : C) (base : List (Frame Empty C V))
      (o : Outcome V), h[r]? = some (.pending c) →
      Over E base (step E ⟨h, events, .demand r, base⟩) ⟨h', events', .give o, base⟩ →
        ∃ rs m h₁ t, Walk E h events r base rs m ∧ Over E base m ⟨h₁, events', .ended t, .walk rs :: base⟩ ∧
          Decides h₁ t o ∧ h' = h₁.settleAll o rs ∧ rs.getLast? = some r ∧ ∀ q ∈ rs, h'[q]? = some (.ofOutcome o)) ∧
    (∀ (W : Type) (s s' : Session W C V) (r : Ref) (c : C) (o : Outcome V), s.heap[r]? = some (.pending c) →
      Host.outcome E r s = .ok o s' →
        Over E [] (step E ⟨s.heap, s.events, .demand r, []⟩) ⟨s'.heap, s'.events, .give o, []⟩) ∧
    ∀ (W : Type) (s : Session W C V), s.heap.Indirect E → ∀ rs : List Ref, (∀ r ∈ rs, r < s.heap.size) →
      ∃ os t steps, (∀ n ≥ steps, rs.mapM (Host.outcome { E with fuel := n }) s = .ok os t) ∧
        ∀ (i : Nat) (r : Ref), rs[i]? = some r → ∃ o, os[i]? = some o ∧
          (o = .error .blackHole ↔ s.heap.Revisits E r) ∧
          ∀ q, Relation.ReflTransGen (s.heap.Leads E) r q → t.heap[q]? = some (.ofOutcome o) := by
  refine ⟨?_, fun W s s' r c o => Host.over_of_outcome, ?_⟩
  · intro h h' events events' r c base o hcode hway
    rw [step_demand_of_code hcode] at hway
    rcases over_cases hcode hway with ⟨rs, m, -, -, hinside⟩ | ⟨text, hunwound⟩ |
      ⟨rs, m, h₁, t, x, hwalk, hended, hdecides, hm⟩
    · -- a walk that goes on still stands on what waits for it
      obtain ⟨frame, upper, hstack⟩ := hinside.on_base
      have hlength := congrArg List.length hstack
      simp at hlength
      omega
    · cases hunwound
    · cases hm
      refine ⟨rs, m, h₁, t, hwalk, hended, hdecides, rfl, hwalk.getLast?, fun q hq => ?_⟩
      have hlt : q < h₁.size := (hwalk.inside q hq).trans_le hended.size_le
      rw [Heap.getElem?_settleAll, if_pos ⟨hq, hlt⟩]
  · intro W s hindirect rs hinside
    obtain ⟨os, t, steps, hrun, hflat⟩ := Host.outcomes_flatten hindirect rs
    refine ⟨os, t, steps, hrun, fun i r hi => ?_⟩
    obtain ⟨o, ho, hmeans, hstored⟩ := hflat i r hi
    have hr := hinside r (List.mem_of_getElem? hi)
    exact ⟨o, ho, hindirect.means_hole_iff hr hmeans, hstored hr⟩

/-- code that leads on: 0 to 1, and 1 and 2 to each other, while 3 leads to 4; the code 5 forces 0 first and goes on
with 3, whatever it gets -/
def rho : Engine Empty Nat Nat where
  body
    | 0 => .done (.cell 1)
    | 1 => .done (.cell 2)
    | 2 => .done (.cell 1)
    | 3 => .done (.cell 4)
    | _ => .force 0 fun _ => .done (.cell 3)
  parts _ := []
  fuel := 40

/-- The walk from 0 runs into a cycle, and 0 has the black hole like the cells of the cycle. The code 5, which asks for
that outcome and swallows it, takes 3 into its walk and comes to the value in 4. -/
theorem walks_flatten_rho :
    (∃ os t steps, (∀ n ≥ steps, [3, 0].mapM (Host.outcome { rho with fuel := n })
        (⟨#[.pending 0, .pending 1, .pending 2, .pending 3, .value 7], [], ()⟩ : Session Unit Nat Nat) = .ok os t) ∧
      os[1]? = some (.error .blackHole) ∧ t.heap[0]? = some (.failed .blackHole) ∧
      t.heap[1]? = some (.failed .blackHole) ∧ t.heap[2]? = some (.failed .blackHole)) ∧
    ∃ rs m h₁ t, Walk rho #[.pending 0, .pending 1, .pending 2, .pending 3, .value 7, .pending 5] [] 5 [] rs m ∧
      Over rho [] m ⟨h₁, [], .ended t, [.walk rs]⟩ ∧ Decides h₁ t (.ok 7) ∧ rs.getLast? = some 5 := by
  obtain ⟨hflat, hwalks, hindirections⟩ := walks_flatten rho
  constructor
  · let s : Session Unit Nat Nat := ⟨#[.pending 0, .pending 1, .pending 2, .pending 3, .value 7], [], ()⟩
    have hleads : s.heap.Leads rho 0 1 ∧ s.heap.Leads rho 1 2 ∧ s.heap.Leads rho 2 1 ∧ s.heap.Leads rho 3 4 :=
      ⟨⟨0, rfl, rfl⟩, ⟨1, rfl, rfl⟩, ⟨2, rfl, rfl⟩, ⟨3, rfl, rfl⟩⟩
    obtain ⟨hzero, hone, htwo, hthree⟩ := hleads
    have hindirect : s.heap.Indirect rho := by
      intro r hr
      have hsize : s.heap.size = 5 := rfl
      obtain rfl | rfl | rfl | rfl | rfl : r = 0 ∨ r = 1 ∨ r = 2 ∨ r = 3 ∨ r = 4 := by omega
      · exact .inl ⟨1, by decide, hzero⟩
      · exact .inl ⟨2, by decide, hone⟩
      · exact .inl ⟨1, by decide, htwo⟩
      · exact .inl ⟨4, by decide, hthree⟩
      · exact .inr ⟨.ok 7, rfl, nofun⟩
    obtain ⟨os, t, steps, hrun, heach⟩ := hindirections Unit s hindirect [3, 0] (by simp [s])
    obtain ⟨o, ho, hhole, hstored⟩ := heach 1 0 rfl
    obtain rfl := hhole.2 ⟨1, .single hzero, .head hone (.single htwo)⟩
    exact ⟨os, t, steps, hrun, ho, hstored 0 .refl, hstored 1 (.single hzero), hstored 2 (.head hzero (.single hone))⟩
  · let s : Session Unit Nat Nat :=
      ⟨#[.pending 0, .pending 1, .pending 2, .pending 3, .value 7, .pending 5], [], ()⟩
    have hforced : Host.outcome rho 5 s = .ok (.ok 7)
        ⟨#[.failed .blackHole, .failed .blackHole, .failed .blackHole, .value 7, .value 7, .value 7], [], ()⟩ := rfl
    obtain ⟨rs, m, h₁, t, hwalk, hway, hdecides, -, hlast, -⟩ :=
      hflat s.heap _ [] [] 5 5 [] (.ok 7) rfl (hwalks Unit s _ 5 5 (.ok 7) rfl hforced)
    exact ⟨rs, m, h₁, t, hwalk, hway, hdecides, hlast⟩

end Machine

end ByNeed
