/-
Series of forces.

A program holds on to its cells and forces them from outside: one cell, then another, then perhaps the first again. Each
force gives an outcome or is cut off, and the next one starts with the cells as they have been left.
- `Series.induction`: what one run to a halt preserves, every series of forces preserves.
- `Series.once`: over a whole series, no code is handed out twice.
- `Series.answered`: what a force has given, its cell holds to the end.
- `series_end`: where all code is made of procedures, every series comes to its end.
-/
import ByNeed.Proofs.Nesting
import ByNeed.Proofs.Termination

namespace ByNeed

variable {C V : Type}

/-- where no cell is busy, the answer of a cell is its outcome -/
theorem Heap.Calm.stored {h : Heap Unit C V} {r : Ref} {o : Outcome V} (hcalm : h.Calm) (hinside : r < h.size)
    (hanswer : h.claim r = (.outcome o, h)) : h[r]? = some (.ofOutcome o) := by
  rcases h.claim_cases r with ⟨c, -, heq⟩ | ⟨x, heq, hstored | ⟨rfl, hbusy | houtside⟩⟩
  · rw [heq] at hanswer
    cases hanswer
  · rw [heq] at hanswer
    cases hanswer
    exact outcome?_eq_some.1 hstored
  · exact absurd hbusy (hcalm r)
  · exact absurd (Array.getElem?_eq_none_iff.1 houtside) (Nat.not_le.2 hinside)

/-! ## Forces that are cut off -/

namespace Machine

/-- the cell is poisoned, or will be when the stack is dropped -/
def Doomed (m : Machine C V) (r : Ref) : Prop := r ∈ m.held ∨ m.heap[r]? = some (.failed .poisoned)

/-- a force of `r` from outside: its walk goes on, has given an outcome, or is cut off -/
def Underway (r : Ref) (m : Machine C V) : Prop :=
  (∃ rs, r ∈ rs ∧ Inside rs [] m) ∨ (∃ o, m.control = .give o ∧ m.stack = []) ∨
    ∃ text, m.control = .unwind text ∧ Doomed m r

variable {E : Engine Empty C V} {m m' : Machine C V} {base : List (Frame Empty C V)} {rs : List Ref} {r q : Ref}
  {o : Outcome V} {text : String}

/-- what a walk and what waits below it hold -/
theorem Inside.held (hinside : Inside rs base m) : ∃ above, m.held = above ++ (rs ++ base.flatMap Frame.claimed) := by
  cases hinside with
  | running c => exact ⟨[], rfl⟩
  | ended t => exact ⟨[], rfl⟩
  | @nested _ upper k hstack hgoing =>
    refine ⟨upper.flatMap Frame.claimed, ?_⟩
    simp [Machine.held, hstack, Frame.claimed]

/-- an abort changes nothing yet -/
theorem Inside.cut (hinside : Inside rs base m) (hcut : (m.step E).control = .unwind text) :
    (m.step E).heap = m.heap ∧ (m.step E).held = m.held := by
  obtain ⟨-, ⟨-, hheap, hheld⟩ | ⟨hunwound, -⟩⟩ := step_unwind E m hcut
  · exact ⟨hheap, hheld⟩
  · cases hinside with
    | running c => cases hunwound
    | ended t => cases hunwound
    | nested hstack hgoing => exact absurd hunwound (hgoing text)

/-- a cell with an outcome keeps it -/
theorem keeps_step (E : Engine Empty C V) (hheld : Held m.heap fun _ => m.held)
    (hstored : m.heap[r]? = some (.ofOutcome o)) : (m.step E).heap[r]? = some (.ofOutcome o) := by
  obtain ⟨d, heffect, -⟩ := step_effect E m
  rw [(heffect.moves (hheld.busy ())).keeps (Heap.outcome?_eq_some.2 hstored), hstored]

theorem held_step (E : Engine Empty C V) (hheld : Held m.heap fun _ => m.held) :
    Held (m.step E).heap fun _ => (m.step E).held := by
  obtain ⟨d, heffect, -⟩ := step_effect E m
  exact heffect.held (fun o ho => absurd rfl ho) hheld

theorem step_of_unwind (E : Engine Empty C V) (hunwound : m.control = .unwind text) :
    (m.step E).control = .unwind text := by
  obtain ⟨h, events, control, stack⟩ := m
  cases hunwound
  cases stack <;> rfl

theorem Doomed.step (hheld : Held m.heap fun _ => m.held) (hunwound : m.control = .unwind text)
    (hdoomed : Doomed m q) : Doomed (m.step E) q := by
  rcases hdoomed with hmem | hpoisoned
  · have hbusy := hheld.busy () q hmem
    obtain ⟨h, events, control, stack⟩ := m
    cases hunwound
    cases stack with
    | nil => exact .inl hmem
    | cons frame stack =>
      rw [Machine.held, List.flatMap_cons, List.mem_append] at hmem
      rcases hmem with hhere | hbelow
      · exact .inr (Heap.getElem?_settleAll_of_mem hhere hbusy)
      · exact .inl hbelow
  · exact .inr (keeps_step (o := .error .poisoned) E hheld hpoisoned)

/-- when the stack has been dropped, what was to be poisoned is -/
theorem Doomed.poisoned (hdoomed : Doomed m q) (hhalt : m.halted = true) : m.heap[q]? = some (.failed .poisoned) := by
  rcases hdoomed with hmem | hpoisoned
  · rw [held_of_halted hhalt] at hmem
    cases hmem
  · exact hpoisoned

theorem Underway.step (hheld : Held m.heap fun _ => m.held) (hunderway : Underway r m) : Underway r (m.step E) := by
  rcases hunderway with ⟨rs, hmem, hinside⟩ | ⟨o, hgiven, hidle⟩ | ⟨text, hunwound, hdoomed⟩
  · rcases hinside.step_cases (E := E) with hagain | ⟨text, hcut⟩ | ⟨h, events, t, rfl⟩
    · exact .inl ⟨rs, hmem, hagain⟩
    · obtain ⟨above, hall⟩ := hinside.held
      refine .inr (.inr ⟨text, hcut, .inl ?_⟩)
      rw [(hinside.cut hcut).2, hall]
      exact List.mem_append_right _ (List.mem_append_left _ hmem)
    · rcases step_ended_cases E h events t rs [] with ⟨q, c, -, -, heq⟩ | ⟨o, -, heq⟩
      · rw [heq]
        exact .inl ⟨q :: rs, List.mem_cons_of_mem _ hmem, .running _⟩
      · rw [heq]
        exact .inr (.inl ⟨o, rfl, rfl⟩)
  · obtain ⟨h, events, control, stack⟩ := m
    cases hgiven
    cases hidle
    exact .inr (.inl ⟨o, rfl, rfl⟩)
  · exact .inr (.inr ⟨text, step_of_unwind E hunwound, hdoomed.step hheld hunwound⟩)

theorem Underway.halts {n : Nat} {asks : List Ask} (hheld : Held m.heap fun _ => m.held) (hunderway : Underway r m)
    (hrun : Halts E n asks m m') : Underway r m' := by
  induction hrun with
  | here hhalt => exact hunderway
  | step hgoing hrest ih => exact ih (held_step E hheld) (hunderway.step hheld)

/-- a force from outside that is cut off leaves its cell poisoned -/
theorem Halts.demand_cut {n : Nat} {asks : List Ask} {h : Heap Unit C V} {events : List String}
    (hrun : Halts E n asks ⟨h, events, .demand r, []⟩ m) (hcut : m.control = .unwind text) :
    m.heap[r]? = some (.failed .poisoned) := by
  obtain ⟨k, starts, later, -, hrest⟩ := hrun.demand_step
  have hunderway : Underway r (Machine.step E ⟨h, events, .demand r, []⟩) := by
    rcases h.claim_cases r with ⟨c, hcode, -⟩ | ⟨o, heq, -⟩
    · rw [step_demand_of_code hcode]
      exact .inl ⟨[r], List.mem_cons_self, .running _⟩
    · simp only [Machine.step, heq]
      exact .inr (.inl ⟨o, rfl, rfl⟩)
  rcases hunderway.halts (held_step E (held_of_idle rfl)) hrest with ⟨rs, -, hinside⟩ | ⟨o, hgiven, -⟩ | ⟨-, -, hdoomed⟩
  · obtain ⟨frame, upper, hstack⟩ := hinside.on_base
    rw [stack_of_halted hrun.halted] at hstack
    cases hstack
  · rw [hgiven] at hcut
    cases hcut
  · exact hdoomed.poisoned hrun.halted

end Machine

/-- what a force has come to: an outcome, or none if it was cut off -/
def Machine.Answers (m : Machine C V) : Option (Outcome V) → Prop
  | some o => m.control = .give o
  | none => ∃ text, m.control = .unwind text

namespace Host

open Machine

/-- Cells are forced from outside, one after the other. Each force gives an outcome or is cut off; `asks` are all
requests that are made on the way. -/
inductive Series {W : Type} (E : Engine Empty C V) (s : Session W C V) :
    List (Ref × Option (Outcome V)) → List Ask → Session W C V → Prop where
  | none : Series E s [] [] s
  | gave {answers : List (Ref × Option (Outcome V))} {asks : List Ask} {s₁ s₂ : Session W C V} {q : Ref} {o : Outcome V}
      (hbefore : Series E s answers asks s₁) (hended : outcome E q s₁ = .ok o s₂) :
      Series E s (answers ++ [(q, some o)])
        (asks ++ Machine.asks E E.fuel ⟨s₁.heap, s₁.events, .demand q, []⟩) s₂
  | cut {answers : List (Ref × Option (Outcome V))} {asks : List Ask} {s₁ s₂ : Session W C V} {q : Ref} {text : String}
      (hbefore : Series E s answers asks s₁) (hended : outcome E q s₁ = .error (.aborted text) s₂) :
      Series E s (answers ++ [(q, .none)])
        (asks ++ Machine.asks E E.fuel ⟨s₁.heap, s₁.events, .demand q, []⟩) s₂

variable {W : Type} {E : Engine Empty C V} {s s' : Session W C V} {answers : List (Ref × Option (Outcome V))}
  {asks : List Ask}

/-- a force is a run to a halt -/
theorem outcome_halts {q : Ref} {result : EStateM.Result Stop (Session W C V) (Outcome V)}
    (hended : outcome E q s = result) (henough : ∀ s', result ≠ .error .exhausted s') :
    ∃ n m, Halts E n (Machine.asks E E.fuel ⟨s.heap, s.events, .demand q, []⟩) ⟨s.heap, s.events, .demand q, []⟩ m ∧
      (match outcomeOf m.control with
        | .ok o => .ok o ⟨m.heap, m.events, s.world⟩
        | .error stop => .error stop ⟨m.heap, m.events, s.world⟩) = result := by
  subst hended
  cases hrun : Machine.run E E.fuel ⟨s.heap, s.events, .demand q, []⟩ with
  | none =>
    refine absurd ?_ (henough ⟨#[], [], s.world⟩)
    simp [outcome, drive, hrun]
  | some m =>
    obtain ⟨n, hn, asks, hhalts⟩ := run_eq_some_iff.1 hrun
    rw [hhalts.asks_eq hn]
    refine ⟨n, m, hhalts, ?_⟩
    simp only [outcome, drive, hrun]
    cases outcomeOf m.control <;> rfl

/-- The forces of a sequence by their runs. -/
theorem Series.induction {motive : List (Ref × Option (Outcome V)) → List Ask → Heap Unit C V → List String → Prop}
    (hstart : motive [] [] s.heap s.events)
    (hnext : ∀ {answers asks h events q n asks' m x}, motive answers asks h events →
      Halts E n asks' ⟨h, events, .demand q, []⟩ m → Answers m x →
      motive (answers ++ [(q, x)]) (asks ++ asks') m.heap m.events)
    (hseries : Series E s answers asks s') : motive answers asks s'.heap s'.events := by
  induction hseries with
  | none => exact hstart
  | gave hbefore hended ih =>
    obtain ⟨n, m, hhalts, hresult⟩ := outcome_halts hended (by simp)
    cases hgiven : m.control with
    | give o =>
      rw [hgiven] at hresult
      cases hresult
      exact hnext ih hhalts (x := some _) hgiven
    | _ =>
      rw [hgiven] at hresult
      cases hresult
  | cut hbefore hended ih =>
    obtain ⟨n, m, hhalts, hresult⟩ := outcome_halts hended (by simp)
    cases hgiven : m.control with
    | unwind text =>
      rw [hgiven] at hresult
      cases hresult
      exact hnext ih hhalts (x := .none) ⟨_, hgiven⟩
    | _ =>
      rw [hgiven] at hresult
      cases hresult

/-- Over all forces, code is handed out as one run hands it out: no cell is started twice. -/
theorem Series.once (hseries : Series E s answers asks s') : (Ask.started asks).Nodup := by
  have hidle : halted (⟨s.heap, s.events, .unwind "", []⟩ : Machine C V) = true := rfl
  have hrun : ∃ m, Run E ⟨s.heap, s.events, .unwind "", []⟩ (Ask.started asks).reverse m ∧ m.halted = true ∧
      m.heap = s'.heap ∧ m.events = s'.events := by
    refine Series.induction (motive := fun _ asks h events => ∃ m,
      Run E ⟨s.heap, s.events, .unwind "", []⟩ (Ask.started asks).reverse m ∧ m.halted = true ∧ m.heap = h ∧
        m.events = events) ⟨_, .start, hidle, rfl, rfl⟩ ?_ hseries
    rintro answers asks h events q n asks' m x ⟨m₁, hrun, hhalt, rfl, rfl⟩ hhalts -
    refine ⟨m, ?_, hhalts.halted, rfl, rfl⟩
    have hafter := hhalts.run (hrun.shallow hhalt q)
    rw [← List.reverse_append] at hafter
    simpa [Ask.started] using hafter
  obtain ⟨m, hrun, -⟩ := hrun
  exact List.nodup_reverse.1 (hrun.once (held_of_idle rfl)).nodup

/-- What a force has given, its cell holds to the end; if it was cut off, that is the poison. -/
theorem Series.answered (hcalm : s.heap.Calm) (hseries : Series E s answers asks s') :
    (s'.heap.Calm ∧ s.heap.size ≤ s'.heap.size) ∧ ∀ q x, (q, x) ∈ answers → q < s.heap.size →
      ∃ o, s'.heap[q]? = some (.ofOutcome o) ∧ (x = some o ∨ x = .none ∧ o = .error .poisoned) := by
  refine Series.induction (motive := fun answers _ h _ => (h.Calm ∧ s.heap.size ≤ h.size) ∧
    ∀ q x, (q, x) ∈ answers → q < s.heap.size →
      ∃ o, h[q]? = some (.ofOutcome o) ∧ (x = some o ∨ x = .none ∧ o = .error .poisoned))
    ⟨⟨hcalm, le_rfl⟩, fun q x hmem => by cases hmem⟩ ?_ hseries
  rintro answers asks h events q n asks' m x ⟨⟨hcalm, hsize⟩, hbefore⟩ hrun hanswer
  have hcalm' : m.heap.Calm := (hrun.run .start).calm hcalm hrun.halted
  have hsize' : s.heap.size ≤ m.heap.size := hsize.trans hrun.size_le
  refine ⟨⟨hcalm', hsize'⟩, fun p y hmem hinside => ?_⟩
  rcases List.mem_append.1 hmem with hhold | hnew
  · obtain ⟨o, hstored, hagrees⟩ := hbefore p y hhold hinside
    refine ⟨o, ?_, hagrees⟩
    rw [((hrun.run .start).keeps (held_of_idle rfl) (Heap.outcome?_eq_some.2 hstored)).1, hstored]
  · cases List.mem_singleton.1 hnew
    cases x with
    | some o =>
      obtain ⟨-, -, ⟨h', events', o', rfl, hclaim⟩ | ⟨h', events', text, rfl⟩⟩ := hrun.demand_cases
      · cases hanswer
        exact ⟨o, hcalm'.stored (hinside.trans_le hsize') hclaim, .inl rfl⟩
      · cases hanswer
    | none =>
      obtain ⟨text, hcut⟩ := hanswer
      exact ⟨.error .poisoned, hrun.demand_cut hcut, .inr ⟨rfl, rfl⟩⟩

/-- Where all code is made of procedures, every sequence of forces comes to its end, given enough steps for each. -/
theorem series_end (hprocedures : s.heap.Procedures E) (qs : List Ref) :
    ∃ answers asks s' steps, answers.map Prod.fst = qs ∧ s'.heap.Procedures E ∧
      ∀ n ≥ steps, Series { E with fuel := n } s answers asks s' := by
  induction qs using List.reverseRecOn with
  | nil => exact ⟨[], [], s, 0, rfl, hprocedures, fun n _ => .none⟩
  | append_singleton qs q ih =>
    obtain ⟨answers, asks, s₁, steps, hcells, hprocedures₁, hseries⟩ := ih
    have hcode : s₁.heap.CodeIn (Finset.range s₁.heap.size) := fun i c hc =>
      Finset.mem_range.2 (Array.getElem?_eq_some_iff.1 hc).1
    obtain ⟨h', events', o, hreach, hsame⟩ :=
      demand_terminates (fun less _ => terminates E less) hcode hprocedures₁ q s₁.events []
    obtain ⟨more, hrun⟩ := run_of_reaches hreach rfl
    obtain ⟨k, henough, asks', hhalts⟩ := run_eq_some_iff.1 (hrun more le_rfl)
    refine ⟨answers ++ [(q, some o)], asks ++ asks', ⟨h', events', s₁.world⟩, max steps more, by simp [hcells],
      hprocedures₁.inherit hsame, fun n hn => ?_⟩
    have hmore : more ≤ n := (le_max_right steps more).trans hn
    have hbefore := hseries n ((le_max_left steps more).trans hn)
    have hended : outcome { E with fuel := n } q s₁ = .ok o ⟨h', events', s₁.world⟩ := by
      simp [outcome, drive, run_fuel, hrun n hmore, outcomeOf]
    have hall := hbefore.gave hended
    rwa [asks_refuel, hhalts.asks_eq (henough.trans_le hmore)] at hall

end Host

end ByNeed
