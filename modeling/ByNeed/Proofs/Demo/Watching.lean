/-
Which code runs on the way.

A force is watched by adding to a log the code that begins to run, in order: code that is handed out with a cell, and
code that other code goes on with or runs on the spot.
- `Leads`: the evaluator comes from one state to another, and this code begins to run on the way. There is one lemma for
  each request of a computation.
- `settles_watch`: what a watched force comes to, and what it adds to the log.
-/
import ByNeed.Proofs.Demo.Takes

namespace ByNeed

variable {C V : Type}

/-- the code of a cell that has not been claimed -/
def Cell.code? : Cell Unit C V → Option C
  | pending c => some c
  | busy _ | value _ | failed _ => none

namespace Machine

/-- the code that begins to run with the next step -/
def begun? (m : Machine C V) : Option C :=
  match m.control with
  | .run (.done (.code c)) | .run (.eval c _) => some c
  | _ => m.wanted?.bind fun r => m.heap[r]?.bind Cell.code?

/-- the code that begins to run until nothing is left to do, in order -/
def begins (E : Engine Empty C V) : (fuel : Nat) → Machine C V → List C
  | 0, _ => []
  | fuel + 1, m => if m.halted then [] else m.begun?.toList ++ begins E fuel (m.step E)

/-- from one state to another, while this code begins to run -/
inductive Leads (E : Engine Empty C V) : Machine C V → List C → Machine C V → Prop where
  | refl (m : Machine C V) : Leads E m [] m
  | step {m m' : Machine C V} {codes : List C} (hlater : Leads E (m.step E) codes m') :
      Leads E m (m.begun?.toList ++ codes) m'

section

variable {E : Engine Empty C V} {m m' m'' : Machine C V} {codes codes' : List C}

theorem Leads.trans (hfirst : Leads E m codes m') (hsecond : Leads E m' codes' m'') :
    Leads E m (codes ++ codes') m'' := by
  induction hfirst with
  | refl => exact hsecond
  | step hlater ih =>
    rw [List.append_assoc]
    exact .step (ih hsecond)

/-- a step with which no code begins to run -/
theorem Leads.quiet (hnone : m.begun? = none) (hlater : Leads E (m.step E) codes m') : Leads E m codes m' := by
  have hstep := Leads.step hlater
  rwa [hnone] at hstep

theorem Leads.reaches (hleads : Leads E m codes m') : Reaches E m m' := by
  induction hleads with
  | refl => exact .refl
  | step hlater ih => exact .head rfl ih

theorem begun?_of_halted (hhalt : m.halted = true) : m.begun? = none := by
  obtain ⟨heap, events, control, stack⟩ := m
  cases stack with
  | cons frame stack => cases control <;> simp [halted] at hhalt
  | nil =>
    cases control with
    | ended t | give o | unwind text => simp [begun?, wanted?]
    | run | demand | traverse => simp [halted] at hhalt

theorem begins_of_halted (hhalt : m.halted = true) (n : Nat) : begins E n m = [] := by
  cases n with
  | zero => rfl
  | succ n => exact if_pos hhalt

theorem Leads.begins_eq (hleads : Leads E m codes m') (hhalt : m'.halted = true) :
    ∃ steps, ∀ n ≥ steps, begins E n m = codes := by
  induction hleads with
  | refl m => exact ⟨0, fun n _ => begins_of_halted hhalt n⟩
  | @step m m' codes hlater ih =>
    obtain ⟨steps, henough⟩ := ih hhalt
    by_cases hm : m.halted = true
    · rw [step_of_halted E hm] at henough
      rw [begun?_of_halted hm]
      exact ⟨steps, henough⟩
    · refine ⟨steps + 1, fun n hn => ?_⟩
      obtain ⟨k, rfl⟩ := Nat.exists_eq_add_of_le' (Nat.le_of_add_left_le hn)
      rw [begins, if_neg hm, henough k (by omega)]

/-- what begins to run before the evaluator ends does not depend on how many steps are allowed -/
theorem begins_mono {n k : Nat} (hnk : n ≤ k) (hrun : Machine.run E n m = some m') : begins E k m = begins E n m := by
  induction n generalizing m k with
  | zero => cases hrun
  | succ n ih =>
    obtain ⟨k, rfl⟩ := Nat.exists_eq_add_of_le' (Nat.le_of_add_left_le hnk)
    simp only [Machine.run, begins] at hrun ⊢
    split_ifs at hrun ⊢
    · rfl
    · rw [ih (by omega) hrun]

theorem begins_fuel (E : Engine Empty C V) (fuel n : Nat) (m : Machine C V) :
    begins { E with fuel := fuel } n m = begins E n m := by
  induction n generalizing m with
  | zero => rfl
  | succ n ih =>
    have hstep : m.step { E with fuel := fuel } = m.step E := rfl
    simp only [begins, hstep, ih]

end

/-! ## Requests -/

section

variable {E : Engine Empty C V} {h h' : Heap Unit C V} {events events' : List String} {stack : List (Frame Empty C V)}
  {r : Ref} {rs : List Ref} {o : Outcome V} {c : C} {k : Outcome V → Comp Empty C V (Next C V)} {m : Machine C V}
  {codes codes' : List C}

/-- a cell with an outcome answers -/
theorem leads_answer (hknown : h.outcome? r = some o) :
    Leads E ⟨h, events, .demand r, stack⟩ [] ⟨h, events, .give o, stack⟩ := by
  refine .quiet ?_ ?_
  · have hr := Heap.outcome?_eq_some.1 hknown
    cases o <;> simp [begun?, wanted?, hr, Cell.ofOutcome, Cell.code?]
  · rw [step_demand_of_outcome E hknown]
    exact .refl _

/-- a cell with code is claimed -/
theorem leads_claim (hcode : h[r]? = some (.pending c))
    (hlater : Leads E ⟨h.setIfInBounds r (.busy ()), events, .run (E.body c), .walk [r] :: stack⟩ codes m) :
    Leads E ⟨h, events, .demand r, stack⟩ (c :: codes) m := by
  have hbegun : begun? (⟨h, events, .demand r, stack⟩ : Machine C V) = some c := by
    simp [begun?, wanted?, hcode, Cell.code?]
  have hclaims : step E ⟨h, events, .demand r, stack⟩ =
      ⟨h.setIfInBounds r (.busy ()), events, .run (E.body c), .walk [r] :: stack⟩ := by
    simp only [step, Heap.claim, hcode]
  rw [← hclaims] at hlater
  have hstep := Leads.step hlater
  rwa [hbegun] at hstep

/-- a demand inside a computation -/
theorem leads_force (hfirst : Leads E ⟨h, events, .demand r, .resume k :: stack⟩ codes
      ⟨h', events', .give o, .resume k :: stack⟩)
    (hlater : Leads E ⟨h', events', .run (k o), stack⟩ codes' m) :
    Leads E ⟨h, events, .run (.force r k), stack⟩ (codes ++ codes') m :=
  .quiet rfl (hfirst.trans (.quiet rfl hlater))

theorem leads_known (hknown : h.outcome? r = some o) (hlater : Leads E ⟨h, events, .run (k o), stack⟩ codes m) :
    Leads E ⟨h, events, .run (.force r k), stack⟩ codes m :=
  leads_force (leads_answer hknown) hlater

/-- a cell is made at this address -/
theorem leads_delay {code : Ref → C} {next : Ref → Comp Empty C V (Next C V)} (hsize : h.size = r)
    (hlater : Leads E ⟨h.push (.pending (code r)), events, .run (next r), stack⟩ codes m) :
    Leads E ⟨h, events, .run (.delay code next), stack⟩ codes m := by
  subst hsize
  exact .quiet rfl hlater

theorem leads_ready {v : V} {next : Ref → Comp Empty C V (Next C V)} (hsize : h.size = r)
    (hlater : Leads E ⟨h.push (.value v), events, .run (next r), stack⟩ codes m) :
    Leads E ⟨h, events, .run (.ready v next), stack⟩ codes m := by
  subst hsize
  exact .quiet rfl hlater

/-- a walk ends with a value -/
theorem leads_value (v : V) : Leads E ⟨h, events, .run (.done (.value v)), .walk rs :: stack⟩ []
    ⟨h.settleAll (.ok v) rs, events, .give (.ok v), stack⟩ :=
  .quiet rfl (.quiet rfl (.refl _))

theorem leads_fail (e : EvalError) : Leads E ⟨h, events, .run (.fail e), .walk rs :: stack⟩ []
    ⟨h.settleAll (.error e) rs, events, .give (.error e), stack⟩ :=
  .quiet rfl (.quiet rfl (.refl _))

/-- a walk ends with a cell that has an outcome -/
theorem leads_cell (hknown : h.outcome? r = some o) :
    Leads E ⟨h, events, .run (.done (.cell r)), .walk rs :: stack⟩ [] ⟨h.settleAll o rs, events, .give o, stack⟩ := by
  refine .quiet rfl (.quiet ?_ ?_)
  · have hr := Heap.outcome?_eq_some.1 hknown
    cases o <;> simp [step, request, begun?, wanted?, hr, Cell.ofOutcome, Cell.code?]
  · have hends : conclude E h events (.ok (.cell r)) (.walk rs :: stack) =
        ⟨h.settleAll o rs, events, .give o, stack⟩ := by
      simp only [conclude, Heap.claim_of_outcome hknown]
    rw [← hends]
    exact .refl _

end

end Machine

namespace Host

open Machine

variable {E : Engine Empty C V} {s t : Session (List C) C V} {r : Ref} {h : Heap Unit C V} {events : List String}
  {o : Outcome V} {codes : List C}

/-- the value of a cell; the code that begins to run is added to the log -/
def watch (E : Engine Empty C V) (r : Ref) : Host (List C) C V V := fun s =>
  force E r ⟨s.heap, s.events, s.world ++ begins E E.fuel ⟨s.heap, s.events, .demand r, []⟩⟩

/-- **A watched force** comes to what the force comes to. -/
theorem settles_watch (hleads : Leads E ⟨s.heap, s.events, .demand r, []⟩ codes ⟨h, events, .give o, []⟩) :
    Settles (fun n => watch { E with fuel := n } r) s o ⟨h, events, s.world ++ codes⟩ := by
  have hforced := settles_force (s := ⟨s.heap, s.events, s.world ++ codes⟩) hleads.reaches
  obtain ⟨steps, hlogged⟩ := hleads.begins_eq rfl
  have hsame : ∀ n, begins E n ⟨s.heap, s.events, .demand r, []⟩ = codes →
      attempt (watch { E with fuel := n } r) s =
        attempt (force { E with fuel := n } r) ⟨s.heap, s.events, s.world ++ codes⟩ := by
    intro n hn
    simp only [attempt, watch, begins_fuel, hn]
  refine ⟨?_, ?_⟩
  · obtain ⟨steps', henough⟩ := hforced.ends
    refine ⟨max steps steps', fun n hn => ?_⟩
    rw [hsame n (hlogged n (le_of_max_le_left hn))]
    exact henough n (le_of_max_le_right hn)
  · intro n o' t' hended
    -- a force that has ended has been given enough steps, so the log is complete
    have hhalts : ∃ m, Machine.run E n ⟨s.heap, s.events, .demand r, []⟩ = some m := by
      rcases attempt_bind_iff.1 hended with ⟨a, t₁, hbegun, -⟩ | ⟨e, hfailed, -⟩
      · obtain ⟨m, hrun, -⟩ := run_of_outcome hbegun
        exact ⟨m, hrun⟩
      · obtain ⟨m, hrun, -⟩ := run_of_outcome hfailed
        exact ⟨m, hrun⟩
    obtain ⟨m, hrun⟩ := hhalts
    have hcomplete := (begins_mono (le_max_left n steps) hrun).symm.trans (hlogged _ (le_max_right n steps))
    rw [hsame n hcomplete] at hended
    exact hforced.only hended

end Host

end ByNeed
