/-
What a force from outside leaves behind.

No cell is busy between two forces: when a force, shallow or deep, has returned a value, returned an error or been cut
off by an abort anywhere below it, every cell that it claimed has an outcome.

An abort drops the stack frame by frame (`step_unwind`). So, looking back from any state of the unwinding, there is the
state in which the abort was raised, and since then exactly the cells of the dropped walks were poisoned
(`Run.abort_raised`). At the end nothing is left on the stack: the poisoned cells are those that the walks on the
stack held when the abort was raised, heads and links alike, and all other cells are as they were then
(`force_settles`).
-/
import ByNeed.Proofs.Lifecycle

namespace ByNeed

variable {C V : Type}

def Heap.Calm (h : Heap Unit C V) : Prop := ∀ r : Ref, h[r]? ≠ some (.busy ())

namespace Machine

theorem conclude_ne_unwind (E : Engine Empty C V) (heap : Heap Unit C V) (events : List String) (t : Outcome (Tail V))
    (stack : List (Frame Empty C V)) (text : String) : (conclude E heap events t stack).control ≠ .unwind text := by
  intro h
  cases stack with
  | nil => cases h
  | cons frame stack =>
    cases t with
    | error e => cases frame <;> cases h
    | ok t =>
      cases t with
      | value v => cases frame <;> cases h
      | cell r =>
        cases frame with
        | walk claimed =>
          rcases heap.claim_cases r with ⟨c, -, heq⟩ | ⟨o, heq, -⟩
          · simp [conclude, heq] at h
          · simp [conclude, heq] at h
        | resume k => cases h
        | visit top work => cases h

theorem deliver_ne_unwind (E : Engine Empty C V) (heap : Heap Unit C V) (events : List String) (o : Outcome V)
    (stack : List (Frame Empty C V)) (text : String) : (deliver E heap events o stack).control ≠ .unwind text := by
  intro h
  cases stack with
  | nil => cases h
  | cons frame stack =>
    cases frame with
    | walk claimed => cases h
    | resume k => cases h
    | visit top work => cases o <;> cases h

/-- the state after a step unwinds only if an abort is raised, or if the state before was unwinding -/
theorem step_unwind (E : Engine Empty C V) (m : Machine C V) {text : String} (h : (m.step E).control = .unwind text) :
    m.granted? = none ∧
      ((m.control = .run (.abort text) ∧ (m.step E).heap = m.heap ∧ (m.step E).held = m.held) ∨
        (m.control = .unwind text ∧ ∃ gone, m.held = gone ++ (m.step E).held ∧
          (m.step E).heap = m.heap.settleAll (.error .poisoned) gone)) := by
  obtain ⟨heap, events, control, stack⟩ := m
  cases control with
  | run c =>
    cases c with
    | abort text' => cases h; exact ⟨rfl, .inl ⟨rfl, rfl, rfl⟩⟩
    | done next => cases next <;> cases h
    | fork permit c k => cases permit
    | _ => cases h
  | ended t => exact absurd h (conclude_ne_unwind E heap events t stack text)
  | give o => exact absurd h (deliver_ne_unwind E heap events o stack text)
  | demand r => rcases heap.claim_cases r with ⟨c, -, heq⟩ | ⟨o, heq, -⟩ <;> simp [step, heq] at h
  | traverse top work => cases work <;> cases h
  | unwind text' =>
    cases stack with
    | nil => cases h; exact ⟨rfl, .inr ⟨rfl, [], rfl, rfl⟩⟩
    | cons frame stack => cases h; exact ⟨rfl, .inr ⟨rfl, frame.claimed, rfl, rfl⟩⟩

namespace Run

variable {E : Engine Empty C V} {m₀ m : Machine C V} {given : List Ref}

/-- every unwinding goes back to an abort; `gone` are the cells poisoned since then -/
theorem abort_raised (hrun : Run E m₀ given m) (h₀ : ∀ text, m₀.control ≠ .unwind text) {text : String}
    (h : m.control = .unwind text) :
    ∃ m₁ gone, Run E m₀ given m₁ ∧ m₁.control = .run (.abort text) ∧ m₁.held = gone ++ m.held ∧
      m.heap = m₁.heap.settleAll (.error .poisoned) gone := by
  induction hrun with
  | start => exact absurd h (h₀ text)
  | @step given m hrun ih =>
    obtain ⟨hg, ⟨hc, hheap, hheld⟩ | ⟨hc, gone, hheld, hheap⟩⟩ := step_unwind E m h
    · rw [hg]
      exact ⟨m, [], hrun, hc, by rw [hheld]; rfl, hheap⟩
    · obtain ⟨m₁, gone₁, hrun₁, hc₁, hheld₁, hheap₁⟩ := ih hc
      rw [hg]
      refine ⟨m₁, gone₁ ++ gone, hrun₁, hc₁, ?_, ?_⟩
      · rw [hheld₁, hheld, List.append_assoc]
      · rw [hheap, hheap₁, Heap.settleAll_append]
  | shallow hrun hidle r ih => cases h
  | deep hrun hidle v ih => cases h

/-- when nothing is left to do, no cell is busy -/
theorem calm (hrun : Run E m₀ given m) (h₀ : m₀.heap.Calm) (h : m.halted = true) :
    m.heap.Calm := by
  intro r hr
  have ht : Tight (fun _ => False) m₀.heap fun _ => m₀.held := fun i o hi => absurd hi (h₀ i)
  rcases hrun.tight ht r () hr with hmem | hfalse
  · rw [held_of_halted h] at hmem; cases hmem
  · exact hfalse

end Run

end Machine

/-! ## Forces from outside -/

namespace Host

open Machine

variable {W : Type} {E : Engine Empty C V}

/-- how a procedure ends that reads its answer off a halted evaluator -/
inductive Ends (world : W) (m : Machine C V) : EStateM.Result Stop (Session W C V) V → Prop where
  | value {v : V} (h : m.control = .give (.ok v)) : Ends world m (.ok v ⟨m.heap, m.events, world⟩)
  | error {e : EvalError} (h : m.control = .give (.error e)) :
      Ends world m (.error (.failed e) ⟨m.heap, m.events, world⟩)
  | abort {text : String} (h : m.control = .unwind text) :
      Ends world m (.error (.aborted text) ⟨m.heap, m.events, world⟩)

/-- `x` runs out of steps, or goes on with a run to a halt at which it ends -/
def Completes (E : Engine Empty C V) (m₀ : Machine C V) (x : Host W C V V) (s : Session W C V) : Prop :=
  (∃ s', x s = .error .exhausted s') ∨ ∃ given m, Run E m₀ given m ∧ m.halted = true ∧ Ends s.world m (x s)

theorem drive_completes {m₀ : Machine C V} {given : List Ref} {control : Control Empty C V} {s : Session W C V}
    (hbefore : Run E m₀ given ⟨s.heap, s.events, control, []⟩) :
    Completes E m₀ (drive E control outcomeOf >>= ofOutcome) s := by
  rcases drive_run hbefore with ⟨s', hs⟩ | ⟨given', m, hrun, hidle, ⟨o, hc, hs⟩ | ⟨text, hc, hs⟩⟩
  · exact .inl ⟨s', by simp only [bind, EStateM.bind, hs]⟩
  · refine .inr ⟨given', m, hrun, hidle, ?_⟩
    simp only [bind, EStateM.bind, hs]
    cases o with
    | ok v => exact .value hc
    | error e => exact .error hc
  · refine .inr ⟨given', m, hrun, hidle, ?_⟩
    simp only [bind, EStateM.bind, hs]
    exact .abort hc

theorem force_completes (E : Engine Empty C V) (r : Ref) (s : Session W C V) :
    Completes E ⟨s.heap, s.events, .demand r, []⟩ (force E r) s :=
  drive_completes .start

theorem forceDeep_completes (E : Engine Empty C V) (r : Ref) (s : Session W C V) :
    Completes E ⟨s.heap, s.events, .demand r, []⟩ (forceDeep E r) s := by
  rcases force_completes E r s with ⟨s', hs⟩ | ⟨given, m, hrun, hidle, hends⟩
  · exact .inl ⟨s', by simp only [forceDeep, bind, EStateM.bind, hs]⟩
  · generalize hx : force E r s = result at hends
    cases hends with
    | @value v hc =>
      -- the second half starts where the first one halted
      have hsecond := drive_completes (s := ⟨m.heap, m.events, s.world⟩) (hrun.deep hidle v)
      simp only [Completes, forceDeep, bind, EStateM.bind, hx]
      exact hsecond
    | error hc =>
      refine .inr ⟨given, m, hrun, hidle, ?_⟩
      simp only [forceDeep, bind, EStateM.bind, hx]
      exact .error hc
    | abort hc =>
      refine .inr ⟨given, m, hrun, hidle, ?_⟩
      simp only [forceDeep, bind, EStateM.bind, hx]
      exact .abort hc

/-- **No cell is left half-forced.** Once a force from outside has given a value or an error, or was cut off, no cell is
busy. If it was cut off, there is the state `m` in which the abort was raised: the cells held by the walks on its
stack are poisoned, all other cells are as they were then, and a cell whose code was never handed out still has it. -/
theorem force_settles (E : Engine Empty C V) (r : Ref) (s : Session W C V) (hcalm : s.heap.Calm) {x : Host W C V V}
    (hx : x = force E r ∨ x = forceDeep E r) :
    (∀ v s', x s = .ok v s' → s'.heap.Calm) ∧
    (∀ e s', x s = .error (.failed e) s' → s'.heap.Calm) ∧
    ∀ text s', x s = .error (.aborted text) s' → s'.heap.Calm ∧
      ∃ given m, Run E ⟨s.heap, s.events, .demand r, []⟩ given m ∧ m.control = .run (.abort text) ∧
        ∀ i, (i ∈ m.held ↔ m.heap[i]? = some (.busy ())) ∧
          (i ∈ m.held → s'.heap[i]? = some (.failed (.user "thunk computation panicked"))) ∧
          (i ∉ m.held → s'.heap[i]? = m.heap[i]?) ∧
          ∀ c, s.heap[i]? = some (.pending c) → i ∉ given → s'.heap[i]? = some (.pending c) := by
  have hcomp : Completes E ⟨s.heap, s.events, .demand r, []⟩ x s := by
    rcases hx with rfl | rfl
    · exact force_completes E r s
    · exact forceDeep_completes E r s
  rcases hcomp with ⟨s₁, hs⟩ | ⟨given, m, hrun, hidle, hends⟩
  · simp [hs]
  generalize x s = result at hends
  have hcalm' : m.heap.Calm := hrun.calm hcalm hidle
  cases hends with
  | value hc =>
    refine ⟨fun v s' h => ?_, nofun, nofun⟩
    cases h; exact hcalm'
  | error hc =>
    refine ⟨nofun, fun e s' h => ?_, nofun⟩
    cases h; exact hcalm'
  | abort hc =>
    refine ⟨nofun, nofun, fun text s' h => ?_⟩
    cases h
    refine ⟨hcalm', ?_⟩
    -- back to where the abort was raised: the cells given up since are all that were held there
    obtain ⟨m₁, gone, hrun₁, hc₁, hheld, hheap⟩ := hrun.abort_raised (fun _ => nofun) hc
    rw [held_of_halted hidle, List.append_nil] at hheld
    subst hheld
    have hheld₁ := hrun₁.held (held_of_idle rfl)
    have ht : Tight (fun _ => False) s.heap fun _ => [] := fun i o hi => absurd hi (hcalm i)
    refine ⟨given, m₁, hrun₁, hc₁, fun i => ⟨⟨hheld₁.busy () i, fun hb => ?_⟩, fun hi => ?_, fun hi => ?_, ?_⟩⟩
    · simpa using hrun₁.tight ht i () hb
    · rw [hheap]
      exact Heap.getElem?_settleAll_of_mem hi (hheld₁.busy () i hi)
    · rw [hheap]
      exact Heap.getElem?_settleAll_of_notMem hi
    · intro c hcode hi
      exact hrun.keeps_code (held_of_idle rfl) hcode hi

/-- six cells: 0 leads to 2, which forces 1; 1 leads to 3, which forces 4 and then aborts; nothing forces 5 -/
def tower : Engine Empty Nat Nat where
  body
    | 0 => .done (.cell 2)
    | 1 => .done (.cell 3)
    | 2 => .force 1 fun _ => .done (.value 0)
    | 3 => .force 4 fun _ => .abort "boom"
    | _ => .done (.value 7)
  parts _ := []
  fuel := 40

/-- both walks, heads and links, are poisoned; 4 had its value already and 5 was never claimed -/
theorem force_settles_tower :
    force tower 0 ⟨#[.pending 0, .pending 1, .pending 2, .pending 3, .pending 4, .pending 5], [], ()⟩ =
      .error (.aborted "boom") ⟨#[.failed .poisoned, .failed .poisoned, .failed .poisoned, .failed .poisoned, .value 7,
        .pending 5], [], ()⟩ ∧
    ∃ given m, Run tower ⟨#[.pending 0, .pending 1, .pending 2, .pending 3, .pending 4, .pending 5], [], .demand 0, []⟩
      given m ∧ m.control = .run (.abort "boom") ∧ ∀ i, i ∈ m.held ↔ m.heap[i]? = some (.busy ()) := by
  have hcutOff : force tower 0 ⟨#[.pending 0, .pending 1, .pending 2, .pending 3, .pending 4, .pending 5], [], ()⟩ =
      .error (.aborted "boom") ⟨#[.failed .poisoned, .failed .poisoned, .failed .poisoned, .failed .poisoned, .value 7,
        .pending 5], [], ()⟩ := rfl
  have hcalm : Heap.Calm (V := Nat) #[.pending 0, .pending 1, .pending 2, .pending 3, .pending 4, .pending 5] := by
    intro r hr
    have := Array.mem_of_getElem? hr
    simp at this
  obtain ⟨-, given, m, hrun, hraised, hcells⟩ := (force_settles tower 0 _ hcalm (.inl rfl)).2.2 _ _ hcutOff
  exact ⟨hcutOff, given, m, hrun, hraised, fun i => (hcells i).1⟩

end Host

end ByNeed
