/-
The life of cells over whole runs of the evaluator.

A run (`Machine.Run`) is any sequence of evaluator steps and, whenever nothing is left to do, of new operations: a
shallow force of any cell, or the deep force of any value. It is cut off anywhere, so the states in the middle of a
force count, and so do forces that never end. Reading the status of a cell is no move.

- `step_effect`: one step leaves the heap, makes a cell, claims a cell with code, or stores an outcome in cells of the
  walk on top of the stack. Everything below follows from it and from the laws of `Effect`.
- `Run.held`, `Run.tight`: at all times the cells on the stack are different and busy, and no other cell is busy
  that was not so from the start.
- `cell_life`: cells move from code to busy to an outcome, code is handed out at most once in the whole run, and a
  cell with an outcome keeps it: forcing it again gives the same outcome at once.
- `drive_run`: what a host procedure does to its heap is such a run.
-/
import ByNeed.Proofs.Cells
import ByNeed.Host

namespace ByNeed

variable {C V : Type}

/-- a claim hands out code and marks the cell, or answers and leaves the heap: with the outcome stored in the cell, or
with a black hole -/
theorem Heap.claim_cases (h : Heap Unit C V) (r : Ref) :
    (∃ c, h[r]? = some (.pending c) ∧ h.claim r = (.granted c, h.setIfInBounds r (.busy ()))) ∨
      ∃ o, h.claim r = (.outcome o, h) ∧
        (h.outcome? r = some o ∨ o = .error .blackHole ∧ (h[r]? = some (.busy ()) ∨ h[r]? = none)) := by
  cases hr : h[r]? with
  | none => exact .inr ⟨.error .blackHole, by simp [claim, hr], .inr ⟨rfl, .inr rfl⟩⟩
  | some x =>
    cases x with
    | pending c => exact .inl ⟨c, rfl, by simp [claim, hr]⟩
    | busy => exact .inr ⟨.error .blackHole, by simp [claim, hr], .inr ⟨rfl, .inl rfl⟩⟩
    | value v => exact .inr ⟨.ok v, by simp [claim, hr], .inl (by simp [outcome?, hr, Cell.outcome?])⟩
    | failed e => exact .inr ⟨.error e, by simp [claim, hr], .inl (by simp [outcome?, hr, Cell.outcome?])⟩

theorem Heap.claim_of_outcome {h : Heap Unit C V} {r : Ref} {o : Outcome V} (ho : h.outcome? r = some o) :
    h.claim r = (.outcome o, h) := by
  have hr := Heap.outcome?_eq_some.1 ho
  cases o <;> simp [claim, hr, Cell.ofOutcome]

namespace Machine

/-! ## Claims of one step -/

/-- the cells claimed by the walks on the stack -/
def held (m : Machine C V) : List Ref := m.stack.flatMap Frame.claimed

def wanted? (m : Machine C V) : Option Ref :=
  match m.control, m.stack with
  | .demand r, _ => some r
  | .ended (.ok (.cell r)), .walk _ :: _ => some r
  | _, _ => none

/-- the cell whose code the next step hands out and starts -/
def granted? (m : Machine C V) : Option Ref :=
  m.wanted?.filter fun r =>
    match m.heap.claim r with
    | (.granted _, _) => true
    | (.outcome _, _) => false

theorem granted?_of_code {m : Machine C V} {r : Ref} {c : C} (hw : m.wanted? = some r)
    (hr : m.heap[r]? = some (.pending c)) : m.granted? = some r := by
  simp [granted?, hw, Heap.claim, hr]

theorem granted?_of_answer {m : Machine C V} {r : Ref} {o : Outcome V} {h : Heap Unit C V} (hw : m.wanted? = some r)
    (hr : m.heap.claim r = (.outcome o, h)) : m.granted? = none := by
  simp [granted?, hw, hr]

/-! ## What one step does to the heap -/

theorem request_effect (E : Engine Empty C V) (heap : Heap Unit C V) (events : List String)
    (stack : List (Frame Empty C V)) (c : Comp Empty C V (Next C V)) :
    ∃ d, Effect () d heap (stack.flatMap Frame.claimed) (request E heap events stack c).heap
      (request E heap events stack c).held ∧ d.claimed? = none := by
  cases c with
  | done next => cases next <;> exact ⟨_, .quiet (.refl _), rfl⟩
  | ready v k => exact ⟨_, .make (.value v), rfl⟩
  | delay c k => exact ⟨_, .make (.pending _), rfl⟩
  | fork permit c k => cases permit
  | _ => exact ⟨_, .quiet (.refl _), rfl⟩

theorem conclude_effect (E : Engine Empty C V) (heap : Heap Unit C V) (events : List String) (t : Outcome (Tail V))
    (stack : List (Frame Empty C V)) :
    ∃ d, Effect () d heap (stack.flatMap Frame.claimed) (conclude E heap events t stack).heap
      (conclude E heap events t stack).held ∧ d.claimed? = granted? ⟨heap, events, .ended t, stack⟩ := by
  match stack, t with
  | .walk claimed :: stack, .error e => exact ⟨_, .settle (.error e) claimed _, rfl⟩
  | .walk claimed :: stack, .ok (.value v) => exact ⟨_, .settle (.ok v) claimed _, rfl⟩
  | .walk claimed :: stack, .ok (.cell r) =>
    have hw : wanted? ⟨heap, events, .ended (.ok (.cell r)), .walk claimed :: stack⟩ = some r := rfl
    rcases heap.claim_cases r with ⟨c, hc, heq⟩ | ⟨o, heq, -⟩
    · rw [granted?_of_code hw hc]
      simp only [conclude, heq]
      exact ⟨_, .claim hc, rfl⟩
    · rw [granted?_of_answer hw heq]
      simp only [conclude, heq]
      exact ⟨_, .settle o claimed _, rfl⟩
  | [], .error e => exact ⟨_, .quiet (.refl _), rfl⟩
  | [], .ok t => cases t <;> exact ⟨_, .quiet (.refl _), rfl⟩
  | .resume k :: stack, .error e => exact ⟨_, .quiet (.refl _), rfl⟩
  | .resume k :: stack, .ok t => cases t <;> exact ⟨_, .quiet (.refl _), rfl⟩
  | .visit top work :: stack, .error e => exact ⟨_, .quiet (.refl _), rfl⟩
  | .visit top work :: stack, .ok t => cases t <;> exact ⟨_, .quiet (.refl _), rfl⟩

theorem deliver_effect (E : Engine Empty C V) (heap : Heap Unit C V) (events : List String) (o : Outcome V)
    (stack : List (Frame Empty C V)) :
    ∃ d, Effect () d heap (stack.flatMap Frame.claimed) (deliver E heap events o stack).heap
      (deliver E heap events o stack).held ∧ d.claimed? = none := by
  match stack, o with
  | [], _ => exact ⟨_, .quiet (.refl _), rfl⟩
  | .walk claimed :: stack, o => exact ⟨_, .settle o claimed _, rfl⟩
  | .resume k :: stack, o => exact ⟨_, .quiet (.refl _), rfl⟩
  | .visit top work :: stack, .ok v => exact ⟨_, .quiet (.refl _), rfl⟩
  | .visit top work :: stack, .error e => exact ⟨_, .quiet (.refl _), rfl⟩

/-- **What a step can do** to the heap and to the cells held. -/
theorem step_effect (E : Engine Empty C V) (m : Machine C V) :
    ∃ d, Effect () d m.heap m.held (m.step E).heap (m.step E).held ∧ d.claimed? = m.granted? := by
  obtain ⟨heap, events, control, stack⟩ := m
  cases control with
  | run c => exact request_effect E heap events stack c
  | ended t => exact conclude_effect E heap events t stack
  | give o => exact deliver_effect E heap events o stack
  | demand r =>
    have hw : wanted? ⟨heap, events, .demand r, stack⟩ = some r := rfl
    rcases heap.claim_cases r with ⟨c, hc, heq⟩ | ⟨o, heq, -⟩
    · rw [granted?_of_code hw hc]
      simp only [step, heq]
      exact ⟨_, .claim hc, rfl⟩
    · rw [granted?_of_answer hw heq]
      simp only [step, heq]
      exact ⟨_, .quiet (.refl _), rfl⟩
  | traverse top work => cases work <;> exact ⟨_, .quiet (.refl _), rfl⟩
  | unwind text =>
    cases stack with
    | nil => exact ⟨_, .quiet (.refl _), rfl⟩
    | cons frame stack => exact ⟨_, .settle (.error .poisoned) frame.claimed _, rfl⟩

/-- the label of a step is the cell that goes from code to busy -/
theorem granted?_eq_some_iff (E : Engine Empty C V) (m : Machine C V) (r : Ref) :
    m.granted? = some r ↔ (∃ c, m.heap[r]? = some (.pending c)) ∧ (m.step E).heap[r]? = some (.busy ()) := by
  obtain ⟨d, he, hd⟩ := step_effect E m
  rw [← hd, he.claimed?_eq_some_iff]

/-! ## Runs -/

/-- a run from `m₀`, with the cells whose code was handed out on the way, the latest first -/
inductive Run (E : Engine Empty C V) (m₀ : Machine C V) : List Ref → Machine C V → Prop where
  | start : Run E m₀ [] m₀
  | step {given : List Ref} {m : Machine C V} (hrun : Run E m₀ given m) :
      Run E m₀ (m.granted?.toList ++ given) (m.step E)
  /-- a shallow force of any cell, once nothing is left to do -/
  | shallow {given : List Ref} {m : Machine C V} (hrun : Run E m₀ given m) (hidle : m.halted = true) (r : Ref) :
      Run E m₀ given ⟨m.heap, m.events, .demand r, []⟩
  /-- everything reachable from a value is forced: a deep force is a shallow one followed by this -/
  | deep {given : List Ref} {m : Machine C V} (hrun : Run E m₀ given m) (hidle : m.halted = true) (v : V) :
      Run E m₀ given ⟨m.heap, m.events, .traverse v (E.parts v), []⟩

theorem held_of_halted {m : Machine C V} (h : m.halted = true) : m.held = [] := by
  obtain ⟨heap, events, control, stack⟩ := m
  cases stack with
  | nil => rfl
  | cons frame stack => cases control <;> simp [halted] at h

namespace Run

variable {E : Engine Empty C V} {m₀ m : Machine C V} {given : List Ref}

theorem held (hrun : Run E m₀ given m) (h : Held m₀.heap fun _ => m₀.held) : Held m.heap fun _ => m.held := by
  induction hrun with
  | start => exact h
  | @step given m hrun ih =>
    obtain ⟨d, he, -⟩ := step_effect E m
    exact he.held (fun o ho => absurd rfl ho) ih
  | shallow hrun hidle r ih => rw [held_of_halted hidle] at ih; exact ih
  | deep hrun hidle v ih => rw [held_of_halted hidle] at ih; exact ih

theorem tight {behind : Ref → Prop} (hrun : Run E m₀ given m) (h : Tight behind m₀.heap fun _ => m₀.held) :
    Tight behind m.heap fun _ => m.held := by
  induction hrun with
  | start => exact h
  | @step given m hrun ih =>
    obtain ⟨d, he, -⟩ := step_effect E m
    exact he.tight (fun o ho => absurd rfl ho) ih
  | shallow hrun hidle r ih => rw [held_of_halted hidle] at ih; exact ih
  | deep hrun hidle v ih => rw [held_of_halted hidle] at ih; exact ih

theorem once (hrun : Run E m₀ given m) (h : Held m₀.heap fun _ => m₀.held) : Once given m.heap := by
  induction hrun with
  | start => exact .nil _
  | @step given m hrun ih =>
    obtain ⟨d, he, hd⟩ := step_effect E m
    rw [← hd]
    exact he.once ((hrun.held h).busy ()) ih
  | shallow hrun hidle r ih => exact ih
  | deep hrun hidle v ih => exact ih

/-- a cell with an outcome keeps it, and its code is not handed out -/
theorem keeps (hrun : Run E m₀ given m) (h : Held m₀.heap fun _ => m₀.held) {r : Ref} {o : Outcome V}
    (ho : m₀.heap.outcome? r = some o) : m.heap[r]? = m₀.heap[r]? ∧ r ∉ given := by
  induction hrun with
  | start => exact ⟨rfl, by simp⟩
  | @step given m hrun ih =>
    have hr : m.heap.outcome? r = some o := by rw [Heap.outcome?, ih.1]; exact ho
    obtain ⟨d, he, -⟩ := step_effect E m
    refine ⟨((he.moves ((hrun.held h).busy ())).keeps hr).trans ih.1, fun hg => ?_⟩
    rcases List.mem_append.1 hg with hg | hg
    · obtain ⟨⟨c, hc⟩, -⟩ := (granted?_eq_some_iff E m r).1 (Option.mem_toList.1 hg)
      rw [Heap.outcome?_eq_some.1 hr] at hc
      exact Cell.ofOutcome_ne_pending o c (Option.some.inj hc)
    · exact ih.2 hg
  | shallow hrun hidle r ih => exact ih
  | deep hrun hidle v ih => exact ih

/-- a cell with code keeps it as long as it is not handed out -/
theorem keeps_code (hrun : Run E m₀ given m) (h : Held m₀.heap fun _ => m₀.held) {r : Ref} {c : C}
    (hc : m₀.heap[r]? = some (.pending c)) (hg : r ∉ given) : m.heap[r]? = some (.pending c) := by
  induction hrun with
  | start => exact hc
  | @step given m hrun ih =>
    rw [List.mem_append, not_or] at hg
    obtain ⟨d, he, hd⟩ := step_effect E m
    rw [← hd] at hg
    exact he.keeps_code ((hrun.held h).busy ()) (ih hg.2) fun hr => hg.1 (Option.mem_toList.2 hr)
  | shallow hrun hidle r ih => exact ih hg
  | deep hrun hidle v ih => exact ih hg

end Run

theorem held_of_idle {m : Machine C V} (hidle : m.stack = []) : Held m.heap fun _ => m.held := by
  simp only [Machine.held, hidle]
  exact ⟨fun _ => List.nodup_nil, by simp⟩

/-- the demand of a cell with an outcome is answered at once -/
theorem step_demand_of_outcome (E : Engine Empty C V) {h : Heap Unit C V} {r : Ref} {o : Outcome V}
    (ho : h.outcome? r = some o) (events : List String) (stack : List (Frame Empty C V)) :
    step E ⟨h, events, .demand r, stack⟩ = ⟨h, events, .give o, stack⟩ := by
  simp only [step, Heap.claim_of_outcome ho]

/-- steps until nothing is left to do are a run -/
theorem run_some {E : Engine Empty C V} {m₀ : Machine C V} {fuel : Nat} {given : List Ref} {m m' : Machine C V}
    (h : Machine.run E fuel m = some m') (hbefore : Run E m₀ given m) :
    m'.halted = true ∧ ∃ given', Run E m₀ given' m' := by
  induction fuel generalizing given m with
  | zero => cases h
  | succ fuel ih =>
    simp only [Machine.run] at h
    split_ifs at h with hm
    · cases h; exact ⟨hm, given, hbefore⟩
    · exact ih h hbefore.step

end Machine

/-! ## Host procedures are runs -/

namespace Host

open Machine

variable {W : Type} {E : Engine Empty C V}

/-- the outcome of a cell that has one is handed out, and the session stays as it is -/
theorem outcome_of_outcome? (hfuel : 2 ≤ E.fuel) {s : Session W C V} {r : Ref} {o : Outcome V}
    (ho : s.heap.outcome? r = some o) : outcome E r s = .ok o s := by
  obtain ⟨n, hn⟩ := Nat.exists_eq_add_of_le' hfuel
  simp [outcome, drive, hn, Machine.run, halted, step_demand_of_outcome E ho, outcomeOf]

/-- a deep force of a cell that has an outcome ends with its error, or goes straight on to what is below its value -/
theorem forceDeep_of_outcome? (hfuel : 2 ≤ E.fuel) {s : Session W C V} {r : Ref} {o : Outcome V}
    (ho : s.heap.outcome? r = some o) :
    forceDeep E r s = (ofOutcome o >>= normalize E) s := by
  simp [forceDeep, force, bind, EStateM.bind, outcome_of_outcome? hfuel ho]

/-- what driving the evaluator from the end of a run comes to: it runs out of steps, or the run goes on to a halt that
the answer and the session are read off -/
theorem drive_run {m₀ : Machine C V} {given : List Ref} {control : Control Empty C V} {s : Session W C V}
    (hbefore : Run E m₀ given ⟨s.heap, s.events, control, []⟩) :
    (∃ s', drive E control outcomeOf s = .error .exhausted s') ∨
      ∃ given' m, Run E m₀ given' m ∧ m.halted = true ∧
        ((∃ o, m.control = .give o ∧ drive E control outcomeOf s = .ok o ⟨m.heap, m.events, s.world⟩) ∨
          ∃ text, m.control = .unwind text ∧
            drive E control outcomeOf s = .error (.aborted text) ⟨m.heap, m.events, s.world⟩) := by
  obtain ⟨heap, events, world⟩ := s
  cases hrun : Machine.run E E.fuel ⟨heap, events, control, []⟩ with
  | none => exact .inl ⟨⟨#[], [], world⟩, by simp [drive, hrun]⟩
  | some m =>
    obtain ⟨hhalt, given', hafter⟩ := run_some hrun hbefore
    cases hc : m.control with
    | give o => exact .inr ⟨given', m, hafter, hhalt, .inl ⟨o, hc, by simp [drive, hrun, hc, outcomeOf]⟩⟩
    | unwind text => exact .inr ⟨given', m, hafter, hhalt, .inr ⟨text, hc, by simp [drive, hrun, hc, outcomeOf]⟩⟩
    | _ => exact .inl ⟨⟨m.heap, m.events, world⟩, by simp [drive, hrun, hc, outcomeOf]⟩

end Host

namespace Machine

/-- **The life of a cell.** Whatever has been forced before, every step moves each cell from code to busy to an
outcome, or not at all; the code of a cell is handed out at most once in the whole run; and once a cell has an
outcome, it keeps it: a force of it, nested or from outside, gives that outcome at once and changes nothing. -/
theorem cell_life {E : Engine Empty C V} {m₀ m : Machine C V} {given : List Ref} (hidle : m₀.stack = [])
    (hrun : Run E m₀ given m) :
    m.heap.Moves (m.step E).heap ∧
    (∀ r, m.granted? = some r ↔ (∃ c, m.heap[r]? = some (.pending c)) ∧ (m.step E).heap[r]? = some (.busy ())) ∧
    given.Nodup ∧
    ∀ r o, m.heap.outcome? r = some o → ∀ given' m', Run E m given' m' →
      m'.heap[r]? = m.heap[r]? ∧ r ∉ given' ∧
      (∀ stack, step E ⟨m'.heap, m'.events, .demand r, stack⟩ = ⟨m'.heap, m'.events, .give o, stack⟩) ∧
      ∀ (W : Type) (s : Session W C V), s.heap = m'.heap → 2 ≤ E.fuel → Host.outcome E r s = .ok o s ∧
        Host.forceDeep E r s = (Host.ofOutcome o >>= Host.normalize E) s := by
  have hheld := hrun.held (held_of_idle hidle)
  obtain ⟨d, he, -⟩ := step_effect E m
  refine ⟨he.moves (hheld.busy ()), granted?_eq_some_iff E m,
    (hrun.once (held_of_idle hidle)).nodup, fun r o ho given' m' hrun' => ?_⟩
  obtain ⟨hkeep, hnot⟩ := hrun'.keeps hheld ho
  have ho' : m'.heap.outcome? r = some o := by rw [Heap.outcome?, hkeep]; exact ho
  refine ⟨hkeep, hnot, step_demand_of_outcome E ho' m'.events, fun W s hs hfuel => ?_⟩
  rw [← hs] at ho'
  exact ⟨Host.outcome_of_outcome? hfuel ho', Host.forceDeep_of_outcome? hfuel ho'⟩

/-- two cells: the code of the first forces its own cell, takes the black hole for an answer and goes on with the
second, which comes to 7 -/
def stubborn : Engine Empty Bool Nat where
  body first := if first then .force 0 fun _ => .done (.cell 1) else .done (.value 7)
  parts _ := []
  fuel := 2

/-- the walk over both cells claims each of them once, and later runs leave them as they are -/
theorem cell_life_stubborn :
    ∃ m, Run stubborn ⟨#[.pending true, .pending false], [], .demand 0, []⟩ [1, 0] m ∧ [1, 0].Nodup ∧
      m.heap.outcome? 0 = some (.ok 7) ∧
      ∀ given' m', Run stubborn m given' m' → m'.heap[0]? = some (.value 7) ∧ 0 ∉ given' := by
  have hrun : Run stubborn ⟨#[.pending true, .pending false], [], .demand 0, []⟩ [1, 0]
      ⟨#[.value 7, .value 7], [], .give (.ok 7), []⟩ :=
    Run.start.step.step.step.step.step.step.step.step
  obtain ⟨-, -, hnodup, hlater⟩ := cell_life rfl hrun
  refine ⟨_, hrun, hnodup, rfl, fun given' m' hrun' => ?_⟩
  obtain ⟨hkeep, hnot, -⟩ := hlater 0 (.ok 7) rfl given' m' hrun'
  exact ⟨hkeep, hnot⟩

end Machine

end ByNeed
