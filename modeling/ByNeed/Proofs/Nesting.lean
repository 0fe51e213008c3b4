/-
Runs within runs.

What a demand does is its own affair: neither the cells it changes nor the requests it makes depend on what waits below
it on the stack. A run to a halt (`Machine.Halts`) is counted and carries its requests for cells (`Ask`): which cells are
at work, for which cell they ask, and whether code is handed out.
- `halts_onto_iff`: a run above waiting frames is a run of its own, followed by what the frames do with its end.
- `Halts.demand_cases`: the run of a demand asks for its cell, and all other requests on the way come from the code of
  cells. Where it gives an outcome, the cell has that outcome from then on.
- `drive_iff`: a host procedure ends as the halt says that its run comes to.
-/
import ByNeed.Proofs.Walks
import ByNeed.Proofs.Unwinding

namespace ByNeed

variable {C V : Type}

structure Ask where
  /-- the cells that are at work, the latest first -/
  busy : List Ref
  cell : Ref
  /-- whether the request is answered with code, which then runs -/
  starts : Bool
deriving DecidableEq, Repr

/-- the cell whose code makes the request; `none` if it is made outside the code of cells -/
def Ask.asker (ask : Ask) : Option Ref := ask.busy.head?

/-- the cells that are requested outside the code of cells, in order -/
def Ask.outer (asks : List Ask) : List Ref := (asks.filter fun ask => ask.asker.isNone).map cell

@[simp]
theorem Ask.outer_nil : outer [] = [] := rfl

@[simp]
theorem Ask.outer_append (asks asks' : List Ask) : outer (asks ++ asks') = outer asks ++ outer asks' := by
  simp [outer]

theorem Ask.outer_demand {r : Ref} {starts : Bool} {later : List Ask} (hinner : ∀ ask ∈ later, ask.asker ≠ none) :
    outer (⟨[], r, starts⟩ :: later) = [r] := by
  have hrest : later.filter (fun ask => ask.asker.isNone) = [] :=
    List.filter_eq_nil_iff.2 fun ask hask => by simpa using hinner ask hask
  have hfirst : asker ⟨[], r, starts⟩ = none := rfl
  simp [outer, hfirst, hrest]

/-- the cells whose code is handed out, in order -/
def Ask.started (asks : List Ask) : List Ref := (asks.filter Ask.starts).map Ask.cell

/-- a cell that answers with a value holds it -/
theorem Heap.claim_ok_iff {h : Heap Unit C V} {r : Ref} {v : V} :
    h.claim r = (.outcome (.ok v), h) ↔ h[r]? = some (.value v) := by
  refine ⟨fun hanswer => ?_, fun hvalue => claim_of_outcome (outcome?_eq_some.2 hvalue)⟩
  rcases h.claim_cases r with ⟨c, -, heq⟩ | ⟨o, heq, hstored | ⟨rfl, -⟩⟩
  · rw [heq] at hanswer
    cases hanswer
  · rw [heq] at hanswer
    cases hanswer
    exact outcome?_eq_some.1 hstored
  · rw [heq] at hanswer
    cases hanswer

namespace Machine

/-! ## Runs to a halt -/

def asked? (m : Machine C V) : Option Ask := m.wanted?.map fun r => ⟨m.held, r, m.granted?.isSome⟩

/-- the requests made on the way to a halt, as far as `fuel` steps go -/
def asks (E : Engine Empty C V) : (fuel : Nat) → Machine C V → List Ask
  | 0, _ => []
  | fuel + 1, m => if m.halted then [] else m.asked?.toList ++ asks E fuel (m.step E)

/-- a run to a halt: how many steps it takes, and which requests are made on the way -/
inductive Halts (E : Engine Empty C V) : Nat → List Ask → Machine C V → Machine C V → Prop where
  | here {m : Machine C V} (hhalt : m.halted = true) : Halts E 0 [] m m
  | step {n : Nat} {asks : List Ask} {m m' : Machine C V} (hgoing : m.halted = false)
      (hrest : Halts E n asks (m.step E) m') : Halts E (n + 1) (m.asked?.toList ++ asks) m m'

/-- the same state above waiting frames -/
def onto (m : Machine C V) (base : List (Frame Empty C V)) : Machine C V := { m with stack := m.stack ++ base }

section

variable {E : Engine Empty C V} {m m' : Machine C V} {n k : Nat} {asks : List Ask} {base : List (Frame Empty C V)}
  {h : Heap Unit C V} {events : List String} {r : Ref} {o : Outcome V}

theorem Halts.halted (hrun : Halts E n asks m m') : m'.halted = true := by
  induction hrun with
  | here hhalt => exact hhalt
  | step hgoing hrest ih => exact ih

theorem stack_of_halted (hhalt : m.halted = true) : m.stack = [] := by
  obtain ⟨h, events, control, stack⟩ := m
  cases stack with
  | nil => rfl
  | cons frame stack => cases control <;> cases hhalt

theorem run_eq_some_iff : Machine.run E n m = some m' ↔ ∃ k < n, ∃ asks, Halts E k asks m m' := by
  constructor
  · intro hrun
    induction n generalizing m with
    | zero => cases hrun
    | succ n ih =>
      simp only [Machine.run] at hrun
      split_ifs at hrun with hhalt
      · cases hrun
        exact ⟨0, Nat.succ_pos n, [], .here hhalt⟩
      · obtain ⟨k, hk, asks, hrest⟩ := ih hrun
        exact ⟨k + 1, Nat.succ_lt_succ hk, _, .step (Bool.eq_false_iff.2 hhalt) hrest⟩
  · rintro ⟨k, hk, asks, hrun⟩
    induction hrun generalizing n with
    | here hhalt =>
      obtain ⟨n, rfl⟩ := Nat.exists_eq_add_of_le' hk
      simp [Machine.run, hhalt]
    | step hgoing hrest ih =>
      obtain ⟨n, rfl⟩ := Nat.exists_eq_add_of_le' (Nat.zero_lt_of_lt hk)
      simp only [Machine.run, hgoing]
      exact ih (by omega)

theorem Halts.asks_eq (hrun : Halts E k asks m m') (henough : k < n) : Machine.asks E n m = asks := by
  induction hrun generalizing n with
  | here hhalt =>
    obtain ⟨n, rfl⟩ := Nat.exists_eq_add_of_le' henough
    simp [Machine.asks, hhalt]
  | step hgoing hrest ih =>
    obtain ⟨n, rfl⟩ := Nat.exists_eq_add_of_le' (Nat.zero_lt_of_lt henough)
    simp only [Machine.asks, hgoing]
    rw [ih (by omega)]
    rfl

/-- how many steps a host allows has no part in the steps -/
theorem Halts.refuel (hrun : Halts E n asks m m') (fuel : Nat) : Halts { E with fuel := fuel } n asks m m' := by
  induction hrun with
  | here hhalt => exact .here hhalt
  | step hgoing hrest ih => exact .step hgoing ih

theorem asks_refuel (E : Engine Empty C V) (fuel n : Nat) (m : Machine C V) :
    Machine.asks { E with fuel := fuel } n m = Machine.asks E n m := by
  induction n generalizing m with
  | zero => rfl
  | succ n ih =>
    simp only [Machine.asks]
    rw [ih]
    rfl

theorem started_asked? (m : Machine C V) : Ask.started m.asked?.toList = m.granted?.toList := by
  unfold asked? granted?
  cases m.wanted? with
  | none => rfl
  | some r =>
    simp only [Option.map_some, Option.toList_some, Ask.started, Option.filter_some]
    cases m.heap.claim r with
    | mk answer h => cases answer <;> simp

/-- a run to a halt is a run that hands out code as its requests say -/
theorem Halts.run {m₀ : Machine C V} {given : List Ref} (hrun : Halts E n asks m m') (hbefore : Run E m₀ given m) :
    Run E m₀ ((Ask.started asks).reverse ++ given) m' := by
  induction hrun generalizing given with
  | here hhalt => exact hbefore
  | @step n asks m m' hgoing hrest ih =>
    have hafter := ih hbefore.step
    have hsplit : Ask.started (m.asked?.toList ++ asks) = m.granted?.toList ++ Ask.started asks := by
      rw [← started_asked?]
      simp [Ask.started]
    have hsingle : m.granted?.toList.reverse = m.granted?.toList := by cases m.granted? <;> rfl
    rwa [hsplit, List.reverse_append, List.append_assoc, hsingle]

theorem Halts.size_le (hrun : Halts E n asks m m') : m.heap.size ≤ m'.heap.size := by
  induction hrun with
  | here hhalt => exact le_rfl
  | step hgoing hrest ih => exact (size_step E _).trans ih

/-- a cell that holds a value keeps it -/
theorem Halts.keeps {v : V} (hrun : Halts E n asks m m') (hidle : m.stack = [])
    (hvalue : m.heap[r]? = some (.value v)) :
    m'.heap[r]? = some (.value v) := by
  have hstored : m.heap.outcome? r = some (.ok v) := Heap.outcome?_eq_some.2 hvalue
  rw [((hrun.run .start).keeps (held_of_idle hidle) hstored).1, hvalue]

/-- a demand from outside is a request that no code makes, and then goes on -/
theorem Halts.demand_step (hrun : Halts E n asks ⟨h, events, .demand r, []⟩ m') :
    ∃ k starts later, asks = ⟨[], r, starts⟩ :: later ∧
      Halts E k later (Machine.step E ⟨h, events, .demand r, []⟩) m' := by
  cases hrun with
  | here hhalt => cases hhalt
  | step hgoing hrest => exact ⟨_, _, _, rfl, hrest⟩

/-- a step that makes no request -/
theorem halts_quiet_iff {m' : Machine C V} (hgoing : m.halted = false) (hquiet : m.asked? = none) :
    Halts E n asks m m' ↔ ∃ k, n = k + 1 ∧ Halts E k asks (m.step E) m' := by
  constructor
  · intro hrun
    cases hrun with
    | here hhalt =>
      rw [hgoing] at hhalt
      cases hhalt
    | @step k asks _ _ hgoing hrest =>
      rw [hquiet]
      exact ⟨k, rfl, hrest⟩
  · rintro ⟨k, rfl, hrest⟩
    have hrun := Halts.step hgoing hrest
    rwa [hquiet] at hrun

theorem halts_of_halted {m' : Machine C V} (hhalt : m.halted = true) :
    Halts E n asks m m' ↔ n = 0 ∧ asks = [] ∧ m' = m := by
  constructor
  · intro hrun
    cases hrun with
    | here hhalt => exact ⟨rfl, rfl, rfl⟩
    | step hgoing hrest =>
      rw [hhalt] at hgoing
      cases hgoing
  · rintro ⟨rfl, rfl, rfl⟩
    exact .here hhalt

/-! ## What waits below -/

theorem halted_onto (hgoing : m.halted = false) (base : List (Frame Empty C V)) : (m.onto base).halted = false := by
  obtain ⟨h, events, control, stack⟩ := m
  cases stack with
  | cons frame stack => cases control <;> rfl
  | nil => cases control <;> first | rfl | cases hgoing

/-- a step that is no halt leaves alone what waits below -/
theorem step_onto (E : Engine Empty C V) (hgoing : m.halted = false) (base : List (Frame Empty C V)) :
    (m.onto base).step E = (m.step E).onto base := by
  obtain ⟨h, events, control, stack⟩ := m
  cases control with
  | run c =>
    cases c with
    | done next => cases next <;> rfl
    | fork permit c k => cases permit
    | _ => rfl
  | demand r => rcases h.claim_cases r with ⟨c, -, heq⟩ | ⟨o, heq, -⟩ <;> simp [onto, step, heq]
  | traverse top work => cases work <;> rfl
  | ended t =>
    cases stack with
    | nil => cases hgoing
    | cons frame stack =>
      rcases t with e | v | q
      · cases frame <;> rfl
      · cases frame <;> rfl
      · cases frame with
        | resume | visit => rfl
        | walk claimed =>
          rcases h.claim_cases q with ⟨c, -, heq⟩ | ⟨o, heq, -⟩ <;> simp [onto, step, conclude, heq]
  | give o =>
    cases stack with
    | nil => cases hgoing
    | cons frame stack =>
      cases frame with
      | visit top work => cases o <;> rfl
      | walk | resume => rfl
  | unwind text =>
    cases stack with
    | nil => cases hgoing
    | cons frame stack => rfl

/-- frames that hold no cell make no difference to the requests -/
theorem asked?_onto (hgoing : m.halted = false) (hnone : base.flatMap Frame.claimed = []) :
    (m.onto base).asked? = m.asked? := by
  have hheld : (m.onto base).held = m.held := by simp [Machine.held, onto, hnone]
  have hwanted : (m.onto base).wanted? = m.wanted? := by
    obtain ⟨h, events, control, stack⟩ := m
    cases control with
    | ended t =>
      cases stack with
      | nil => cases hgoing
      | cons frame stack => rcases t with e | v | q <;> cases frame <;> rfl
    | _ => rfl
  simp only [asked?, granted?, hheld, hwanted]
  rfl

/-- **Nesting.** A run above waiting frames that hold no cell is a run of its own, followed by what the frames do with
its end. -/
theorem halts_onto_iff (hnone : base.flatMap Frame.claimed = []) :
    Halts E n asks (m.onto base) m' ↔ ∃ n₁ n₂ asks₁ asks₂ m₁, Halts E n₁ asks₁ m m₁ ∧
      Halts E n₂ asks₂ (m₁.onto base) m' ∧ n = n₁ + n₂ ∧ asks = asks₁ ++ asks₂ := by
  constructor
  · intro hrun
    generalize hwhole : m.onto base = x at hrun
    induction hrun generalizing m with
    | here hhalt =>
      subst hwhole
      have hown : m.halted = true := by
        by_contra hgoing
        rw [halted_onto (Bool.eq_false_iff.2 hgoing)] at hhalt
        cases hhalt
      exact ⟨0, 0, [], [], m, .here hown, .here hhalt, rfl, rfl⟩
    | @step n asks x m' hgoing hrest ih =>
      subst hwhole
      -- the nested run may be over although the whole goes on
      by_cases hown : m.halted = true
      · exact ⟨0, n + 1, [], _, m, .here hown, .step hgoing hrest, by omega, rfl⟩
      · have hown := Bool.eq_false_iff.2 hown
        obtain ⟨n₁, n₂, asks₁, asks₂, m₁, hfirst, hsecond, rfl, rfl⟩ := ih (step_onto E hown base).symm
        refine ⟨n₁ + 1, n₂, _, asks₂, m₁, .step hown hfirst, hsecond, by omega, ?_⟩
        rw [asked?_onto hown hnone, List.append_assoc]
  · rintro ⟨n₁, n₂, asks₁, asks₂, m₁, hfirst, hsecond, rfl, rfl⟩
    induction hfirst with
    | here hhalt => simpa using hsecond
    | @step n₁ asks₁ m m₁ hgoing hrest ih =>
      have hlater := ih hsecond
      rw [← step_onto E hgoing base] at hlater
      have hwhole := Halts.step (halted_onto hgoing base) hlater
      rwa [asked?_onto hgoing hnone, ← List.append_assoc, Nat.add_right_comm] at hwhole

/-! ## Demands -/

theorem Inside.walk_mem {rs : List Ref} (hinside : Inside rs base m) : Frame.walk rs ∈ m.stack := by
  cases hinside with
  | running c => exact List.mem_cons_self
  | ended t => exact List.mem_cons_self
  | nested hstack hgoing => simp [hstack]

/-- as long as a walk from outside goes on, it is the code of cells that makes the requests -/
theorem Halts.over {c : C} (hcode : h[r]? = some (.pending c))
    (hbefore : Over E [] ⟨h.setIfInBounds r (.busy ()), events, .run (E.body c), [.walk [r]]⟩ m)
    (hrun : Halts E n asks m m') :
    Over E [] ⟨h.setIfInBounds r (.busy ()), events, .run (E.body c), [.walk [r]]⟩ m' ∧
      ∀ ask ∈ asks, ask.asker ≠ none := by
  induction hrun with
  | here hhalt => exact ⟨hbefore, by simp⟩
  | @step n asks m m' hgoing hrest ih =>
    rcases over_cases hcode hbefore with ⟨rs, m₁, hwalk, -, hinside⟩ | ⟨text, hunwound⟩ |
      ⟨rs, m₁, h₁, t, o, -, -, -, hm⟩
    · obtain ⟨hway, hinner⟩ := ih (hbefore.tail ⟨hinside.on_base, rfl⟩)
      refine ⟨hway, fun ask hask => ?_⟩
      rcases List.mem_append.1 hask with hnow | hlater
      · obtain ⟨q, -, rfl⟩ := Option.map_eq_some_iff.1 (Option.mem_toList.1 hnow)
        have hmem : r ∈ m.held := List.mem_flatMap.2 ⟨_, hinside.walk_mem, List.mem_of_getLast? hwalk.getLast?⟩
        rw [ne_eq, Ask.asker, List.head?_eq_none_iff]
        exact List.ne_nil_of_mem hmem
      · exact hinner ask hlater
    · obtain ⟨h₁, events₁, control, stack⟩ := m
      cases hunwound
      cases stack with
      | nil => cases hgoing
      | cons frame stack =>
        obtain ⟨hway, hinner⟩ := ih (hbefore.tail ⟨⟨frame, stack, by simp⟩, rfl⟩)
        exact ⟨hway, hinner⟩
    · rw [hm] at hgoing
      cases hgoing

/-- **A demand from outside.** Outside the code of cells it asks for its cell and for no other. It gives an outcome, with
which the cell answers from then on, or it unwinds. -/
theorem Halts.demand_cases (hrun : Halts E n asks ⟨h, events, .demand r, []⟩ m) :
    0 < n ∧ Ask.outer asks = [r] ∧
      ((∃ h' events' o, m = ⟨h', events', .give o, []⟩ ∧ h'.claim r = (.outcome o, h')) ∨
        ∃ h' events' text, m = ⟨h', events', .unwind text, []⟩) := by
  cases hrun with
  | here hhalt => cases hhalt
  | @step n asks _ _ hgoing hrest =>
    refine ⟨Nat.succ_pos n, ?_⟩
    rcases h.claim_cases r with ⟨c, hcode, heq⟩ | ⟨o, heq, -⟩
    · rw [step_demand_of_code hcode] at hrest
      obtain ⟨hway, hinner⟩ := hrest.over hcode .refl
      refine ⟨Ask.outer_demand hinner, ?_⟩
      rcases over_cases hcode hway with ⟨rs, m₁, -, -, hinside⟩ | ⟨text, hunwound⟩ |
        ⟨rs, m₁, h₁, t, o, hwalk, hlast, -, hm⟩
      · -- still inside: then code waits on the stack, and the state is no halt
        have hhalt := hrest.halted
        obtain ⟨frame, upper, hstack⟩ := hinside.on_base
        obtain ⟨h₁, events₁, control, _⟩ := m
        cases hstack
        cases control <;> cases hhalt
      · have hhalt := hrest.halted
        obtain ⟨h₁, events₁, control, stack⟩ := m
        cases hunwound
        cases stack with
        | nil => exact .inr ⟨h₁, events₁, text, rfl⟩
        | cons frame stack => cases hhalt
      · refine .inl ⟨_, _, o, hm, Heap.claim_of_outcome (Heap.outcome?_eq_some.2 ?_)⟩
        have hmem := List.mem_of_getLast? hwalk.getLast?
        rw [Heap.getElem?_settleAll, if_pos ⟨hmem, (hwalk.inside r hmem).trans_le hlast.size_le⟩]
    · have hanswered : Machine.step E ⟨h, events, .demand r, []⟩ = ⟨h, events, .give o, []⟩ := by
        simp only [Machine.step, heq]
      rw [hanswered] at hrest
      cases hrest with
      | here hhalt => exact ⟨Ask.outer_demand (by simp), .inl ⟨h, events, o, rfl, heq⟩⟩
      | step hgoing hrest => cases hgoing

/-- a cell that answers is asked once, and nothing changes -/
theorem halts_demand_of_answer (E : Engine Empty C V) (hanswer : h.claim r = (.outcome o, h)) (events : List String) :
    Halts E 1 [⟨[], r, false⟩] ⟨h, events, .demand r, []⟩ ⟨h, events, .give o, []⟩ := by
  have hgoing : halted ⟨h, events, .demand r, []⟩ = false := rfl
  have hanswered : step E ⟨h, events, .demand r, []⟩ = ⟨h, events, .give o, []⟩ := by simp only [step, hanswer]
  have hasked : asked? ⟨h, events, .demand r, []⟩ = some ⟨[], r, false⟩ := by
    have hgranted : granted? ⟨h, events, .demand r, []⟩ = none := granted?_of_answer rfl hanswer
    simp [asked?, hgranted, wanted?, held]
  have hrest : Halts E 0 [] (step E ⟨h, events, .demand r, []⟩) ⟨h, events, .give o, []⟩ := by
    rw [hanswered]
    exact .here rfl
  have hrun := Halts.step hgoing hrest
  rwa [hasked] at hrun

end

end Machine

/-! ## Host procedures -/

namespace Host

open Machine

variable {W α : Type} {E : Engine Empty C V} {s : Session W C V} {control : Control Empty C V} {m : Machine C V}

/-- what a procedure ends with that reads its answer off a halted evaluator -/
def readOff (answer : Control Empty C V → Except Stop (Outcome α)) (world : W) (m : Machine C V) :
    EStateM.Result Stop (Session W C V) α :=
  match answer m.control with
  | .ok o => ofOutcome o ⟨m.heap, m.events, world⟩
  | .error stop => .error stop ⟨m.heap, m.events, world⟩

/-- **How a host procedure ends.** If it does not run out of steps, its end is read off the halt that the evaluator comes
to, and the other way round. -/
theorem drive_iff {answer : Control Empty C V → Except Stop (Outcome α)}
    {result : EStateM.Result Stop (Session W C V) α} :
    ((drive E control answer >>= ofOutcome) s = result ∧ ∀ s', result ≠ .error .exhausted s') ↔
      ∃ n < E.fuel, ∃ asks m, Halts E n asks ⟨s.heap, s.events, control, []⟩ m ∧
        readOff answer s.world m = result ∧ ∀ s', result ≠ .error .exhausted s' := by
  have hread : ∀ m, Machine.run E E.fuel ⟨s.heap, s.events, control, []⟩ = some m →
      (drive E control answer >>= ofOutcome) s = readOff answer s.world m := by
    intro m hrun
    simp only [drive, bind, EStateM.bind, hrun, readOff]
    cases answer m.control <;> rfl
  constructor
  · rintro ⟨hended, henough⟩
    cases hrun : Machine.run E E.fuel ⟨s.heap, s.events, control, []⟩ with
    | none =>
      refine absurd (hended.symm.trans ?_) (henough ⟨#[], [], s.world⟩)
      simp only [drive, bind, EStateM.bind, hrun]
    | some m =>
      obtain ⟨n, hn, asks, hhalts⟩ := run_eq_some_iff.1 hrun
      exact ⟨n, hn, asks, m, hhalts, (hread m hrun).symm.trans hended, henough⟩
  · rintro ⟨n, hn, asks, m, hhalts, hended, henough⟩
    exact ⟨(hread m (run_eq_some_iff.2 ⟨n, hn, asks, hhalts⟩)).trans hended, henough⟩

section

variable {world : W} {result result' : EStateM.Result Stop (Session W C V) V}

theorem ends_iff : Ends world m result ↔ readOff outcomeOf world m = result ∧ ∀ s', result ≠ .error .exhausted s' := by
  constructor
  · intro hends
    cases hends with
    | value hgiven => exact ⟨by simp only [readOff, hgiven, outcomeOf]; rfl, by simp⟩
    | error hgiven => exact ⟨by simp only [readOff, hgiven, outcomeOf]; rfl, by simp⟩
    | abort hunwound => exact ⟨by simp only [readOff, hunwound, outcomeOf], by simp⟩
  · rintro ⟨rfl, henough⟩
    obtain ⟨h, events, control, stack⟩ := m
    cases control with
    | give o =>
      cases o with
      | ok v => exact .value rfl
      | error e => exact .error rfl
    | unwind text => exact .abort rfl
    | _ => exact absurd rfl (henough ⟨h, events, world⟩)

theorem Ends.unique (hends : Ends world m result) (hends' : Ends world m result') : result = result' :=
  (ends_iff.1 hends).1.symm.trans (ends_iff.1 hends').1

end

end Host

end ByNeed
