/-
Forcing comes to an end.

A procedure ends with a value, an error, a cell or the code of a procedure, or it makes a request and goes on with
whatever answer it gets: it may force cells, run procedures on the spot, handle errors, look at cells and make cells that
hold values. It makes no cell with code. So the code of a heap only gets less, and every walk, nested or not, takes some
of it away: the cells that still have code, together with the running procedure, are what goes down.
- `Lawful.step`, `Run.lawful`: over whole runs, only procedures run, and no cell gets code.
- `Terminates.of_fewer`: procedures and walks end if they do where fewer cells have code.
- `forcing_terminates`: a force ends with an outcome, and hands out the code of no cell twice and of new cells never.
-/
import ByNeed.Proofs.Order

namespace ByNeed

variable {C V : Type}

/-! ## Procedures -/

/-- goes on after every answer, errors included, until it ends; makes no cell with code -/
inductive Procedure (E : Engine Empty C V) : Comp Empty C V (Next C V) → Prop where
  | value (v : V) : Procedure E (.done (.value v))
  | cell (r : Ref) : Procedure E (.done (.cell r))
  | code {c : C} (hbody : Procedure E (E.body c)) : Procedure E (.done (.code c))
  | fail (e : EvalError) : Procedure E (.fail e)
  | force {r : Ref} {k : Outcome V → Comp Empty C V (Next C V)} (hnext : ∀ o, Procedure E (k o)) :
      Procedure E (.force r k)
  | eval {c : C} {k : Outcome V → Comp Empty C V (Next C V)} (hbody : Procedure E (E.body c))
      (hnext : ∀ o, Procedure E (k o)) : Procedure E (.eval c k)
  | peek {r : Ref} {k : Status → Comp Empty C V (Next C V)} (hnext : ∀ s, Procedure E (k s)) : Procedure E (.peek r k)
  | ready {v : V} {k : Ref → Comp Empty C V (Next C V)} (hnext : ∀ r, Procedure E (k r)) : Procedure E (.ready v k)
  | emit {event : String} {k : Unit → Comp Empty C V (Next C V)} (hnext : Procedure E (k ())) :
      Procedure E (.emit event k)

namespace Heap

def Procedures (E : Engine Empty C V) (h : Heap Unit C V) : Prop :=
  ∀ (r : Ref) (c : C), h[r]? = some (.pending c) → Procedure E (E.body c)

/-- the code of `h` was there in `h₀` -/
def CodeFrom (h₀ h : Heap Unit C V) : Prop :=
  ∀ (r : Ref) (c : C), h[r]? = some (.pending c) → h₀[r]? = some (.pending c)

def unevaluated (h : Heap Unit C V) : List Ref := (List.range h.size).filter fun r => h.status r = .unevaluated

section

variable {E : Engine Empty C V} {h h' h'' : Heap Unit C V} {r : Ref} {c : C} {todo : Finset Ref}

theorem status_eq_unevaluated : h.status r = .unevaluated ↔ ∃ c, h[r]? = some (.pending c) := by
  unfold status
  cases h[r]? with
  | none => simp
  | some x => cases x <;> simp [Cell.status]

theorem mem_unevaluated : r ∈ h.unevaluated ↔ ∃ c, h[r]? = some (.pending c) := by
  have hinside : ∀ c, h[r]? = some (.pending c) → r < h.size := fun c hc => (Array.getElem?_eq_some_iff.1 hc).1
  rw [unevaluated, List.mem_filter, List.mem_range, decide_eq_true_iff, status_eq_unevaluated]
  exact ⟨fun hr => hr.2, fun ⟨c, hc⟩ => ⟨hinside c hc, c, hc⟩⟩

theorem CodeFrom.refl (h : Heap Unit C V) : CodeFrom h h := fun _ _ hc => hc

theorem CodeFrom.trans (hfirst : CodeFrom h h') (hrest : CodeFrom h' h'') : CodeFrom h h'' :=
  fun r c hc => hfirst r c (hrest r c hc)

theorem codeFrom_push (h : Heap Unit C V) (v : V) : CodeFrom h (h.push (.value v)) := by
  intro r c hc
  rw [Array.getElem?_push] at hc
  split_ifs at hc
  · cases hc
  · exact hc

theorem codeFrom_claimed (hr : h[r]? = some (.pending c)) : CodeFrom h (h.setIfInBounds r (.busy ())) := by
  intro q c' hc
  rw [getElem?_claimed hr] at hc
  split_ifs at hc
  · cases hc
  · exact hc

theorem codeFrom_settleAll (h : Heap Unit C V) (o : Outcome V) (rs : List Ref) : CodeFrom h (h.settleAll o rs) := by
  intro r c hc
  rw [getElem?_settleAll] at hc
  split_ifs at hc
  · exact absurd (Option.some.inj hc) (Cell.ofOutcome_ne_pending o c)
  · exact hc

theorem Procedures.inherit (hprocedures : h.Procedures E) (hsame : CodeFrom h h') : h'.Procedures E :=
  fun r c hc => hprocedures r c (hsame r c hc)

theorem CodeIn.inherit (hcode : h.CodeIn todo) (hsame : CodeFrom h h') : h'.CodeIn todo :=
  fun r c hc => hcode r c (hsame r c hc)

end

end Heap

/-! ## No cell gets code -/

namespace Machine

/-- all that runs, or waits to go on, is a procedure -/
structure Lawful (E : Engine Empty C V) (m : Machine C V) : Prop where
  code : m.heap.Procedures E
  running : ∀ c, m.control = .run c → Procedure E c
  waiting : ∀ k, .resume k ∈ m.stack → ∀ o, Procedure E (k o)

section

variable {E : Engine Empty C V} {m m₀ : Machine C V} {heap : Heap Unit C V} {events : List String}
  {stack : List (Frame Empty C V)} {given : List Ref}

/-- a state in which nothing runs and whose frames were there before -/
theorem Lawful.passive (hcode : heap.Procedures E) (hwaiting : ∀ k, .resume k ∈ stack → ∀ o, Procedure E (k o))
    {control : Control Empty C V} (hidle : ∀ c, control ≠ .run c) : Lawful E ⟨heap, events, control, stack⟩ :=
  ⟨hcode, fun c hc => absurd hc (hidle c), hwaiting⟩

theorem request_lawful {c : Comp Empty C V (Next C V)} (hlawful : Lawful E ⟨heap, events, .run c, stack⟩) :
    Lawful E (request E heap events stack c) ∧ heap.CodeFrom (request E heap events stack c).heap := by
  obtain ⟨hcode, hrunning, hwaiting⟩ := hlawful
  have hpushed : ∀ {k : Outcome V → Comp Empty C V (Next C V)}, (∀ o, Procedure E (k o)) →
      ∀ k', .resume k' ∈ Frame.resume k :: stack → ∀ o, Procedure E (k' o) := by
    intro k hnext k' hk'
    rcases List.mem_cons.1 hk' with hsame | hk'
    · cases hsame
      exact hnext
    · exact hwaiting k' hk'
  cases hrunning c rfl with
  | value v => exact ⟨.passive hcode hwaiting (by simp), .refl heap⟩
  | cell r => exact ⟨.passive hcode hwaiting (by simp), .refl heap⟩
  | fail e => exact ⟨.passive hcode hwaiting (by simp), .refl heap⟩
  | code hbody => exact ⟨⟨hcode, fun c' hc => by cases hc; exact hbody, hwaiting⟩, .refl heap⟩
  | force hnext => exact ⟨.passive hcode (hpushed hnext) (by simp), .refl heap⟩
  | eval hbody hnext => exact ⟨⟨hcode, fun c' hc => by cases hc; exact hbody, hpushed hnext⟩, .refl heap⟩
  | peek hnext => exact ⟨⟨hcode, fun c' hc => by cases hc; exact hnext _, hwaiting⟩, .refl heap⟩
  | @ready v k hnext =>
    have hsame := Heap.codeFrom_push heap v
    exact ⟨⟨hcode.inherit hsame, fun c' hc => by cases hc; exact hnext _, hwaiting⟩, hsame⟩
  | emit hnext => exact ⟨⟨hcode, fun c' hc => by cases hc; exact hnext, hwaiting⟩, .refl heap⟩

theorem conclude_lawful {t : Outcome (Tail V)} (hlawful : Lawful E ⟨heap, events, .ended t, stack⟩) :
    Lawful E (conclude E heap events t stack) ∧ heap.CodeFrom (conclude E heap events t stack).heap := by
  obtain ⟨hcode, -, hwaiting⟩ := hlawful
  cases stack with
  | nil => exact ⟨.passive hcode hwaiting (by simp), .refl heap⟩
  | cons frame stack =>
    cases frame with
    | resume k => rcases t with e | v | r <;> exact ⟨.passive hcode hwaiting (by simp), .refl heap⟩
    | visit top work => rcases t with e | v | r <;> exact ⟨.passive hcode hwaiting (by simp), .refl heap⟩
    | walk claimed =>
      have hbelow : ∀ k, .resume k ∈ stack → ∀ o, Procedure E (k o) :=
        fun k hk => hwaiting k (List.mem_cons_of_mem _ hk)
      have hsettled : ∀ o, Lawful E ⟨heap.settleAll o claimed, events, .give o, stack⟩ ∧
          heap.CodeFrom (heap.settleAll o claimed) := fun o =>
        have hsame := Heap.codeFrom_settleAll heap o claimed
        ⟨.passive (hcode.inherit hsame) hbelow (by simp), hsame⟩
      rcases t with e | v | r
      · exact hsettled (.error e)
      · exact hsettled (.ok v)
      · rcases heap.claim_cases r with ⟨c, hc, heq⟩ | ⟨o, heq, -⟩
        · have hsame := Heap.codeFrom_claimed hc
          simp only [conclude, heq]
          refine ⟨⟨hcode.inherit hsame, fun c' hc' => by cases hc'; exact hcode r c hc, fun k hk => ?_⟩, hsame⟩
          exact hbelow k ((List.mem_cons.1 hk).resolve_left (by simp))
        · simp only [conclude, heq]
          exact hsettled o

theorem deliver_lawful {o : Outcome V} (hlawful : Lawful E ⟨heap, events, .give o, stack⟩) :
    Lawful E (deliver E heap events o stack) ∧ heap.CodeFrom (deliver E heap events o stack).heap := by
  obtain ⟨hcode, -, hwaiting⟩ := hlawful
  cases stack with
  | nil => exact ⟨.passive hcode hwaiting (by simp), .refl heap⟩
  | cons frame stack =>
    have hbelow : ∀ k, .resume k ∈ stack → ∀ o, Procedure E (k o) := fun k hk => hwaiting k (List.mem_cons_of_mem _ hk)
    cases frame with
    | resume k =>
      exact ⟨⟨hcode, fun c' hc => by cases hc; exact hwaiting k List.mem_cons_self o, hbelow⟩, .refl heap⟩
    | visit top work => cases o <;> exact ⟨.passive hcode hbelow (by simp), .refl heap⟩
    | walk claimed =>
      have hsame := Heap.codeFrom_settleAll heap o claimed
      exact ⟨.passive (hcode.inherit hsame) hbelow (by simp), hsame⟩

/-- A step of procedures leads to procedures, and gives no cell code. -/
theorem Lawful.step (hlawful : Lawful E m) : Lawful E (m.step E) ∧ m.heap.CodeFrom (m.step E).heap := by
  obtain ⟨heap, events, control, stack⟩ := m
  cases control with
  | run c => exact request_lawful hlawful
  | ended t => exact conclude_lawful hlawful
  | give o => exact deliver_lawful hlawful
  | demand r =>
    obtain ⟨hcode, -, hwaiting⟩ := hlawful
    rcases heap.claim_cases r with ⟨c, hc, heq⟩ | ⟨o, heq, -⟩
    · have hsame := Heap.codeFrom_claimed hc
      simp only [Machine.step, heq]
      refine ⟨⟨hcode.inherit hsame, fun c' hc' => by cases hc'; exact hcode r c hc, fun k hk => ?_⟩, hsame⟩
      exact hwaiting k ((List.mem_cons.1 hk).resolve_left (by simp))
    · simp only [Machine.step, heq]
      exact ⟨.passive hcode hwaiting (by simp), .refl heap⟩
  | traverse top work =>
    obtain ⟨hcode, -, hwaiting⟩ := hlawful
    cases work with
    | nil => exact ⟨.passive hcode hwaiting (by simp), .refl heap⟩
    | cons r work =>
      refine ⟨.passive hcode (fun k hk => ?_) (by simp), .refl heap⟩
      exact hwaiting k ((List.mem_cons.1 hk).resolve_left (by simp))
  | unwind text =>
    obtain ⟨hcode, -, hwaiting⟩ := hlawful
    cases stack with
    | nil => exact ⟨.passive hcode hwaiting (by simp), .refl heap⟩
    | cons frame stack =>
      have hsame := Heap.codeFrom_settleAll heap (.error .poisoned) frame.claimed
      exact ⟨.passive (hcode.inherit hsame) (fun k hk => hwaiting k (List.mem_cons_of_mem _ hk)) (by simp), hsame⟩

theorem lawful_idle (hcode : heap.Procedures E) {control : Control Empty C V} (hidle : ∀ c, control ≠ .run c) :
    Lawful E ⟨heap, events, control, []⟩ :=
  .passive hcode (fun _ hk => absurd hk List.not_mem_nil) hidle

/-- Over a whole run, all code that is handed out was there from the start. -/
theorem Run.lawful (hrun : Run E m₀ given m) (hlawful : Lawful E m₀) :
    Lawful E m ∧ m₀.heap.CodeFrom m.heap ∧ ∀ q ∈ given, q ∈ m₀.heap.unevaluated := by
  induction hrun with
  | start => exact ⟨hlawful, .refl _, List.forall_mem_nil _⟩
  | @step given m hrun ih =>
    obtain ⟨hnow, hsame, hstarted⟩ := ih
    obtain ⟨hnext, hsame'⟩ := hnow.step
    refine ⟨hnext, hsame.trans hsame', fun q hq => ?_⟩
    rcases List.mem_append.1 hq with hq | hq
    · obtain ⟨⟨c, hc⟩, -⟩ := (granted?_eq_some_iff E m q).1 (Option.mem_toList.1 hq)
      exact Heap.mem_unevaluated.2 ⟨c, hsame q c hc⟩
    · exact hstarted q hq
  | shallow hrun hidle r ih => exact ⟨lawful_idle ih.1.code (by simp), ih.2⟩
  | deep hrun hidle v ih => exact ⟨lawful_idle ih.1.code (by simp), ih.2⟩

end

/-! ## Procedures and walks end -/

/-- where only cells in `todo` have code, procedures end, and so do walks when their last code has ended -/
structure Terminates (E : Engine Empty C V) (todo : Finset Ref) : Prop where
  procedure : ∀ {c}, Procedure E c → ∀ {h : Heap Unit C V}, h.CodeIn todo → h.Procedures E → ∀ events stack,
    ∃ h' events' t, Reaches E ⟨h, events, .run c, stack⟩ ⟨h', events', .ended t, stack⟩ ∧ h.CodeFrom h'
  walk : ∀ {h : Heap Unit C V}, h.CodeIn todo → h.Procedures E → ∀ events t rs stack,
    ∃ h' events' o, Reaches E ⟨h, events, .ended t, .walk rs :: stack⟩ ⟨h', events', .give o, stack⟩ ∧ h.CodeFrom h'

section

variable {E : Engine Empty C V} {h : Heap Unit C V} {r : Ref} {c : C} {todo : Finset Ref}

/-- a claim takes the cell out of those that have code: what its code does is known -/
theorem claimed_terminates (hfewer : ∀ less ⊂ todo, Terminates E less) (hcode : h.CodeIn todo)
    (hprocedures : h.Procedures E) (hc : h[r]? = some (.pending c)) (events : List String) (rs : List Ref)
    (stack : List (Frame Empty C V)) :
    ∃ h' events' o, Reaches E ⟨h.setIfInBounds r (.busy ()), events, .run (E.body c), .walk rs :: stack⟩
      ⟨h', events', .give o, stack⟩ ∧ h.CodeFrom h' := by
  have hless := hfewer (todo.erase r) (Finset.erase_ssubset (hcode r c hc))
  have hsame := Heap.codeFrom_claimed hc
  obtain ⟨h₁, events₁, t, hran, hsame₁⟩ :=
    hless.procedure (hprocedures r c hc) (hcode.claimed hc) (hprocedures.inherit hsame) events (.walk rs :: stack)
  obtain ⟨h₂, events₂, o, hwalked, hsame₂⟩ := hless.walk ((hcode.claimed hc).inherit hsame₁)
    (hprocedures.inherit (hsame.trans hsame₁)) events₁ t rs stack
  exact ⟨h₂, events₂, o, hran.trans hwalked, hsame.trans (hsame₁.trans hsame₂)⟩

theorem demand_terminates (hfewer : ∀ less ⊂ todo, Terminates E less) (hcode : h.CodeIn todo)
    (hprocedures : h.Procedures E) (r : Ref) (events : List String) (stack : List (Frame Empty C V)) :
    ∃ h' events' o, Reaches E ⟨h, events, .demand r, stack⟩ ⟨h', events', .give o, stack⟩ ∧ h.CodeFrom h' := by
  rcases h.claim_cases r with ⟨c, hc, heq⟩ | ⟨o, heq, -⟩
  · obtain ⟨h', events', o, hreach, hsame⟩ := claimed_terminates hfewer hcode hprocedures hc events [r] stack
    refine ⟨h', events', o, .head ?_ hreach, hsame⟩
    simp only [step, heq]
  · refine ⟨h, events, o, .single ?_, .refl h⟩
    simp only [step, heq]

theorem walk_terminates (hfewer : ∀ less ⊂ todo, Terminates E less) (hcode : h.CodeIn todo)
    (hprocedures : h.Procedures E) (events : List String) (t : Outcome (Tail V)) (rs : List Ref)
    (stack : List (Frame Empty C V)) :
    ∃ h' events' o, Reaches E ⟨h, events, .ended t, .walk rs :: stack⟩ ⟨h', events', .give o, stack⟩ ∧
      h.CodeFrom h' := by
  rcases t with e | v | r
  · exact ⟨_, events, _, .single rfl, Heap.codeFrom_settleAll h _ rs⟩
  · exact ⟨_, events, _, .single rfl, Heap.codeFrom_settleAll h _ rs⟩
  · rcases h.claim_cases r with ⟨c, hc, heq⟩ | ⟨o, heq, -⟩
    · obtain ⟨h', events', o, hreach, hsame⟩ := claimed_terminates hfewer hcode hprocedures hc events (r :: rs) stack
      refine ⟨h', events', o, .head ?_ hreach, hsame⟩
      simp only [step, conclude, heq]
    · refine ⟨_, events, o, .single ?_, Heap.codeFrom_settleAll h o rs⟩
      simp only [step, conclude, heq]

/-- what code on the spot ends with is handed on, by a demand if it is a cell -/
theorem resume_terminates (hfewer : ∀ less ⊂ todo, Terminates E less) (hcode : h.CodeIn todo)
    (hprocedures : h.Procedures E) (events : List String) (t : Outcome (Tail V))
    (k : Outcome V → Comp Empty C V (Next C V)) (stack : List (Frame Empty C V)) :
    ∃ h' events' o, Reaches E ⟨h, events, .ended t, .resume k :: stack⟩ ⟨h', events', .run (k o), stack⟩ ∧
      h.CodeFrom h' := by
  rcases t with e | v | r
  · exact ⟨h, events, .error e, .head rfl (.single rfl), .refl h⟩
  · exact ⟨h, events, .ok v, .head rfl (.single rfl), .refl h⟩
  · obtain ⟨h', events', o, hreach, hsame⟩ := demand_terminates hfewer hcode hprocedures r events (.resume k :: stack)
    exact ⟨h', events', o, .head rfl (hreach.tail rfl), hsame⟩

/-- **One claim less.** Where procedures and walks end on fewer cells with code, they end on these: a procedure by its
own structure, since all its nested forces claim a cell first. -/
theorem Terminates.of_fewer (hfewer : ∀ less ⊂ todo, Terminates E less) : Terminates E todo := by
  refine ⟨?_, fun hcode hprocedures => walk_terminates hfewer hcode hprocedures⟩
  intro c hprocedure
  induction hprocedure with
  | value v => exact fun _ _ events stack => ⟨_, events, _, .single rfl, .refl _⟩
  | cell r => exact fun _ _ events stack => ⟨_, events, _, .single rfl, .refl _⟩
  | fail e => exact fun _ _ events stack => ⟨_, events, _, .single rfl, .refl _⟩
  | code hbody ih =>
    intro h hcode hprocedures events stack
    obtain ⟨h', events', t, hreach, hsame⟩ := ih hcode hprocedures events stack
    exact ⟨h', events', t, .head rfl hreach, hsame⟩
  | @force r k hnext ih =>
    intro h hcode hprocedures events stack
    obtain ⟨h₁, events₁, o, hforced, hsame⟩ := demand_terminates hfewer hcode hprocedures r events (.resume k :: stack)
    obtain ⟨h₂, events₂, t, hreach, hsame'⟩ := ih o (hcode.inherit hsame) (hprocedures.inherit hsame) events₁ stack
    exact ⟨h₂, events₂, t, .head rfl (hforced.trans (.head rfl hreach)), hsame.trans hsame'⟩
  | @eval c k hbody hnext ihBody ihNext =>
    intro h hcode hprocedures events stack
    obtain ⟨h₁, events₁, t₁, hran, hsame₁⟩ := ihBody hcode hprocedures events (.resume k :: stack)
    obtain ⟨h₂, events₂, o, hresumed, hsame₂⟩ :=
      resume_terminates hfewer (hcode.inherit hsame₁) (hprocedures.inherit hsame₁) events₁ t₁ k stack
    have hsame := hsame₁.trans hsame₂
    obtain ⟨h₃, events₃, t, hreach, hsame₃⟩ := ihNext o (hcode.inherit hsame) (hprocedures.inherit hsame) events₂ stack
    exact ⟨h₃, events₃, t, .head rfl (hran.trans (hresumed.trans hreach)), hsame.trans hsame₃⟩
  | peek hnext ih =>
    intro h hcode hprocedures events stack
    obtain ⟨h', events', t, hreach, hsame⟩ := ih _ hcode hprocedures events stack
    exact ⟨h', events', t, .head rfl hreach, hsame⟩
  | @ready v k hnext ih =>
    intro h hcode hprocedures events stack
    have hsame := Heap.codeFrom_push h v
    obtain ⟨h', events', t, hreach, hsame'⟩ := ih h.size (hcode.inherit hsame) (hprocedures.inherit hsame) events stack
    exact ⟨h', events', t, .head rfl hreach, hsame.trans hsame'⟩
  | @emit event k hnext ih =>
    intro h hcode hprocedures events stack
    obtain ⟨h', events', t, hreach, hsame⟩ := ih hcode hprocedures (event :: events) stack
    exact ⟨h', events', t, .head rfl hreach, hsame⟩

theorem terminates (E : Engine Empty C V) (todo : Finset Ref) : Terminates E todo := by
  induction todo using Finset.strongInduction with
  | H todo hfewer => exact .of_fewer hfewer

end

end Machine

/-! ## Forces from outside -/

namespace Host

open Machine

variable {W : Type} {E : Engine Empty C V}

/-- **Forcing terminates.** Take cells whose code are procedures; they may force each other and lead to each other in
circles, and handle the errors that come of it. A force of any cell ends with an outcome. In the whole run, however far
it has come and whatever is forced after it, code is handed out no more often than there were cells with code: each turn
of a walk, of the force itself or nested in it, uses up one of them. -/
theorem forcing_terminates {s : Session W C V} (hprocedures : s.heap.Procedures E) (r : Ref) :
    (∃ o t steps, ∀ n ≥ steps, outcome { E with fuel := n } r s = .ok o t) ∧
    ∀ given m, Run E ⟨s.heap, s.events, .demand r, []⟩ given m →
      given.Nodup ∧ given ⊆ s.heap.unevaluated ∧ given.length ≤ s.heap.unevaluated.length := by
  constructor
  · obtain ⟨heap, events, world⟩ := s
    have hcode : heap.CodeIn (Finset.range heap.size) := fun i c hc =>
      Finset.mem_range.2 (Array.getElem?_eq_some_iff.1 hc).1
    obtain ⟨h', events', o, hreach, -⟩ :=
      demand_terminates (fun less _ => terminates E less) hcode hprocedures r events []
    obtain ⟨steps, hrun'⟩ := run_of_reaches hreach rfl
    refine ⟨o, ⟨h', events', world⟩, steps, fun n hn => ?_⟩
    simp [outcome, drive, run_fuel, hrun' n hn, outcomeOf]
  · intro given m hrun
    have hnodup := (hrun.once (held_of_idle rfl)).nodup
    obtain ⟨-, -, hstarted⟩ := hrun.lawful (lawful_idle hprocedures (by simp))
    exact ⟨hnodup, hstarted, (List.subperm_of_subset hnodup hstarted).length_le⟩

/-- three cells with code: 0 forces 1 and goes on with 2, whatever it gets; 1 forces 0, makes a cell of its own and ends
with that; 2 leads back to 0 -/
def tangle : Engine Empty Nat Nat where
  body
    | 0 => .force 1 fun _ => .done (.cell 2)
    | 1 => .force 0 fun _ => .ready 5 fun q => .done (.cell q)
    | _ => .done (.cell 0)
  parts _ := []
  fuel := 0

/-- A force of 0 ends, though it comes back to 0 twice; all three cells are claimed on the way, which is as many as can
be. -/
theorem forcing_terminates_tangle :
    (∃ o t steps, ∀ n ≥ steps, outcome { tangle with fuel := n } 0
      (⟨#[.pending 0, .pending 1, .pending 2], [], ()⟩ : Session Unit Nat Nat) = .ok o t) ∧
    ∃ m, Run tangle ⟨#[.pending 0, .pending 1, .pending 2], [], .demand 0, []⟩ [2, 1, 0] m ∧
      [2, 1, 0].length ≤ (Heap.unevaluated (V := Nat) #[.pending 0, .pending 1, .pending 2]).length := by
  have hprocedures : Heap.Procedures tangle #[.pending 0, .pending 1, .pending 2] := by
    have hall : ∀ c, Procedure tangle (tangle.body c)
      | 0 => .force fun _ => .cell 2
      | 1 => .force fun _ => .ready fun q => .cell q
      | _ + 2 => .cell 0
    exact fun _ c _ => hall c
  obtain ⟨hends, hbound⟩ :=
    forcing_terminates (s := (⟨#[.pending 0, .pending 1, .pending 2], [], ()⟩ : Session Unit Nat Nat))
    hprocedures 0
  have hrun : Run tangle ⟨#[.pending 0, .pending 1, .pending 2], [], .demand 0, []⟩ [2, 1, 0] _ :=
    Run.start.step.step.step.step.step.step.step.step.step.step.step.step.step.step
  exact ⟨hends, _, hrun, (hbound _ _ hrun).2.2⟩

end Host

end ByNeed
