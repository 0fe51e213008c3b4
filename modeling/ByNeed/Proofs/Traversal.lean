/-
Deep forcing, cell by cell.

Deep forcing goes over a list of cells, and each value that it finds puts its parts in front of the rest.
- `halts_traverse_cons_iff`: it asks for the first cell and goes on with the parts of what it gets, or stops.
- `forceDeep_iff`: from outside, the cell is forced, and everything below its value after it.
-/
import ByNeed.Proofs.Nesting

namespace ByNeed

variable {C V : Type}

namespace Machine

variable {E : Engine Empty C V} {m : Machine C V} {n : Nat} {asks : List Ask} {h : Heap Unit C V}
  {events : List String} {r : Ref} {top : V} {work : List Ref}

theorem halts_traverse_nil_iff :
    Halts E n asks ⟨h, events, .traverse top [], []⟩ m ↔ n = 1 ∧ asks = [] ∧ m = ⟨h, events, .give (.ok top), []⟩ := by
  rw [halts_quiet_iff rfl rfl]
  constructor
  · rintro ⟨k, rfl, hrest⟩
    obtain ⟨rfl, rfl, rfl⟩ := (halts_of_halted rfl).1 hrest
    exact ⟨rfl, rfl, rfl⟩
  · rintro ⟨rfl, rfl, rfl⟩
    exact ⟨0, rfl, .here rfl⟩

/-- an error or an abort has come out -/
def Stopped (m : Machine C V) : Prop := (∃ e, m.control = .give (.error e)) ∨ ∃ text, m.control = .unwind text

/-- errors and aborts end deep forcing -/
theorem halts_stopped_iff {m₁ : Machine C V} (hstopped : m₁.Stopped) (hidle : m₁.stack = []) :
    Halts E n asks (m₁.onto [.visit top work]) m ↔ n = 1 ∧ asks = [] ∧ m = m₁ := by
  obtain ⟨h₁, events₁, control, stack⟩ := m₁
  subst hidle
  have hdropped : halted ⟨h₁, events₁, control, [.visit top work]⟩ = false ∧
      asked? ⟨h₁, events₁, control, [.visit top work]⟩ = none ∧
      step E ⟨h₁, events₁, control, [.visit top work]⟩ = ⟨h₁, events₁, control, []⟩ ∧
      halted ⟨h₁, events₁, control, []⟩ = true := by
    rcases hstopped with ⟨e, rfl⟩ | ⟨text, rfl⟩ <;> exact ⟨rfl, rfl, rfl, rfl⟩
  obtain ⟨hgoing, hquiet, hdropped, hhalt⟩ := hdropped
  simp only [onto, List.nil_append]
  rw [halts_quiet_iff hgoing hquiet, hdropped]
  simp only [halts_of_halted hhalt]
  constructor
  · rintro ⟨k, rfl, rfl, rfl, rfl⟩
    exact ⟨rfl, rfl, rfl⟩
  · rintro ⟨rfl, rfl, rfl⟩
    exact ⟨0, rfl, rfl, rfl, rfl⟩

theorem Halts.demand_idle {m₁ : Machine C V} (hrun : Halts E n asks ⟨h, events, .demand r, []⟩ m₁) :
    m₁.stack = [] ∧ ((∃ v, m₁.control = .give (.ok v)) ∨ m₁.Stopped) := by
  obtain ⟨-, -, ⟨h', events', e | v, rfl, -⟩ | ⟨h', events', text, rfl⟩⟩ := hrun.demand_cases
  · exact ⟨rfl, .inr (.inl ⟨e, rfl⟩)⟩
  · exact ⟨rfl, .inl ⟨v, rfl⟩⟩
  · exact ⟨rfl, .inr (.inr ⟨text, rfl⟩)⟩

/-- **Deep forcing, one cell after the other.** The first cell is asked for. If it gives a value, its parts come next; if
not, that is the end. -/
theorem halts_traverse_cons_iff :
    Halts E n asks ⟨h, events, .traverse top (r :: work), []⟩ m ↔
      ∃ n₁ asks₁ m₁, Halts E n₁ asks₁ ⟨h, events, .demand r, []⟩ m₁ ∧
        ((∃ v n₂ asks₂, m₁.control = .give (.ok v) ∧
            Halts E n₂ asks₂ ⟨m₁.heap, m₁.events, .traverse top (E.parts v ++ work), []⟩ m ∧
            n = n₁ + n₂ + 2 ∧ asks = asks₁ ++ asks₂) ∨
          (m₁.Stopped ∧ m = m₁ ∧ n = n₁ + 2 ∧ asks = asks₁)) := by
  have hnested : step E ⟨h, events, .traverse top (r :: work), []⟩ =
      (⟨h, events, .demand r, []⟩ : Machine C V).onto [.visit top work] := rfl
  rw [halts_quiet_iff rfl rfl, hnested]
  constructor
  · rintro ⟨k, rfl, hrun⟩
    obtain ⟨n₁, n₂, asks₁, asks₂, m₁, hfirst, hsecond, rfl, rfl⟩ := (halts_onto_iff rfl).1 hrun
    refine ⟨n₁, asks₁, m₁, hfirst, ?_⟩
    obtain ⟨hidle, ⟨v, hgiven⟩ | hstopped⟩ := hfirst.demand_idle
    · obtain ⟨h₁, events₁, control, stack⟩ := m₁
      cases hidle
      cases hgiven
      obtain ⟨k, rfl, hlater⟩ := (halts_quiet_iff rfl rfl).1 hsecond
      exact .inl ⟨v, k, asks₂, rfl, hlater, by omega, rfl⟩
    · obtain ⟨rfl, rfl, rfl⟩ := (halts_stopped_iff hstopped hidle).1 hsecond
      exact .inr ⟨hstopped, rfl, by omega, by simp⟩
  · rintro ⟨n₁, asks₁, m₁, hfirst, ⟨v, n₂, asks₂, hgiven, hlater, rfl, rfl⟩ | ⟨hstopped, rfl, rfl, rfl⟩⟩
    · obtain ⟨hidle, -⟩ := hfirst.demand_idle
      obtain ⟨h₁, events₁, control, stack⟩ := m₁
      cases hidle
      cases hgiven
      refine ⟨_, rfl, (halts_onto_iff rfl).2 ⟨n₁, n₂ + 1, asks₁, asks₂, _, hfirst, ?_, rfl, rfl⟩⟩
      exact (halts_quiet_iff rfl rfl).2 ⟨n₂, rfl, hlater⟩
    · refine ⟨_, rfl, (halts_onto_iff rfl).2 ⟨n₁, 1, asks, [], m, hfirst, ?_, rfl, by simp⟩⟩
      exact (halts_stopped_iff hstopped hfirst.demand_idle.1).2 ⟨rfl, rfl, rfl⟩

/-- deep forcing hands out an outcome, or is cut off -/
theorem Halts.traverse_answers (hrun : Halts E n asks ⟨h, events, .traverse top work, []⟩ m) :
    (∃ o, m.control = .give o) ∨ ∃ text, m.control = .unwind text := by
  induction n using Nat.strongRecOn generalizing h events asks work with
  | ind n ih =>
    cases work with
    | nil =>
      obtain ⟨rfl, rfl, rfl⟩ := halts_traverse_nil_iff.1 hrun
      exact .inl ⟨.ok top, rfl⟩
    | cons r work =>
      obtain ⟨n₁, asks₁, m₁, hfirst, hlater⟩ := halts_traverse_cons_iff.1 hrun
      rcases hlater with ⟨v, n₂, asks₂, hgiven, hlater, rfl, rfl⟩ | ⟨hstopped, rfl, -⟩
      · exact ih n₂ (by omega) hlater
      · exact hstopped.imp_left fun ⟨e, hgiven⟩ => ⟨.error e, hgiven⟩

end Machine

/-! ## Deep forces from outside -/

namespace Host

open Machine

variable {W : Type} {E : Engine Empty C V} {r : Ref} {s s' : Session W C V} {asks : List Ask} {x : Outcome V}
  {result : EStateM.Result Stop (Session W C V) V}

def deepAsks (E : Engine Empty C V) (r : Ref) (s : Session W C V) : List Ask :=
  Machine.asks E E.fuel ⟨s.heap, s.events, .demand r, []⟩ ++
    match force E r s with
    | .ok v s' => Machine.asks E E.fuel ⟨s'.heap, s'.events, .traverse v (E.parts v), []⟩
    | .error _ _ => []

theorem ends_ofOutcome_iff {world : W} {m : Machine C V} :
    Ends world m (ofOutcome x s') ↔ m.control = .give x ∧ s' = ⟨m.heap, m.events, world⟩ := by
  constructor
  · intro hends
    generalize hr : (ofOutcome x s' : EStateM.Result Stop (Session W C V) V) = result at hends
    cases x <;> cases hends <;> cases hr <;> exact ⟨‹_›, rfl⟩
  · rintro ⟨hgiven, rfl⟩
    cases x with
    | ok v => exact .value hgiven
    | error e => exact .error hgiven

theorem Ends.stopped {world : W} {m : Machine C V} (hends : Ends world m result) (hstopped : m.Stopped) :
    ∃ stop, result = .error stop ⟨m.heap, m.events, world⟩ := by
  cases hends with
  | value hgiven => rcases hstopped with ⟨e, hother⟩ | ⟨text, hother⟩ <;> rw [hgiven] at hother <;> cases hother
  | error hgiven => exact ⟨_, rfl⟩
  | abort hunwound => exact ⟨_, rfl⟩

theorem force_iff :
    (force E r s = result ∧ ∀ s', result ≠ .error .exhausted s') ↔
      ∃ n < E.fuel, ∃ asks m, Halts E n asks ⟨s.heap, s.events, .demand r, []⟩ m ∧ Ends s.world m result := by
  simp only [ends_iff]
  exact drive_iff

theorem normalize_iff {v : V} :
    (normalize E v s = result ∧ ∀ s', result ≠ .error .exhausted s') ↔
      ∃ n < E.fuel, ∃ asks m, Halts E n asks ⟨s.heap, s.events, .traverse v (E.parts v), []⟩ m ∧
        Ends s.world m result := by
  simp only [ends_iff]
  exact drive_iff

theorem forceDeep_of_error {stop : Stop} (hforced : force E r s = .error stop s') :
    forceDeep E r s = .error stop s' ∧ deepAsks E r s = Machine.asks E E.fuel ⟨s.heap, s.events, .demand r, []⟩ := by
  constructor
  · simp only [forceDeep, bind, EStateM.bind, hforced]
  · simp only [deepAsks, hforced, List.append_nil]

theorem forceDeep_of_ok {v : V} (hforced : force E r s = .ok v s') :
    forceDeep E r s = normalize E v s' ∧
      deepAsks E r s = Machine.asks E E.fuel ⟨s.heap, s.events, .demand r, []⟩ ++
        Machine.asks E E.fuel ⟨s'.heap, s'.events, .traverse v (E.parts v), []⟩ := by
  constructor
  · simp only [forceDeep, bind, EStateM.bind, hforced]
  · simp only [deepAsks, hforced]

/-- **How a deep force ends.** The cell is forced, and everything below its value after it. -/
theorem forceDeep_iff :
    (forceDeep E r s = result ∧ deepAsks E r s = asks ∧ ∀ s', result ≠ .error .exhausted s') ↔
      ∃ n₁ < E.fuel, ∃ asks₁ m₁, Halts E n₁ asks₁ ⟨s.heap, s.events, .demand r, []⟩ m₁ ∧
        ((m₁.Stopped ∧ asks = asks₁ ∧ Ends s.world m₁ result) ∨
          ∃ v, m₁.control = .give (.ok v) ∧ ∃ n₂ < E.fuel, ∃ asks₂ m₂,
            Halts E n₂ asks₂ ⟨m₁.heap, m₁.events, .traverse v (E.parts v), []⟩ m₂ ∧ asks = asks₁ ++ asks₂ ∧
            Ends s.world m₂ result) := by
  constructor
  · rintro ⟨rfl, rfl, henough⟩
    have hfirst : ∀ s', force E r s ≠ .error .exhausted s' := fun s' hexhausted =>
      henough s' (forceDeep_of_error hexhausted).1
    obtain ⟨n₁, hn₁, asks₁, m₁, hrun₁, hends₁⟩ := force_iff.1 ⟨rfl, hfirst⟩
    refine ⟨n₁, hn₁, asks₁, m₁, hrun₁, ?_⟩
    obtain ⟨-, ⟨v, hgiven⟩ | hstopped⟩ := hrun₁.demand_idle
    · have hforced := hends₁.unique (.value hgiven)
      obtain ⟨hwhole, hrequests⟩ := forceDeep_of_ok hforced
      rw [hwhole] at henough
      obtain ⟨n₂, hn₂, asks₂, m₂, hrun₂, hends₂⟩ := normalize_iff.1 ⟨rfl, henough⟩
      refine .inr ⟨v, hgiven, n₂, hn₂, asks₂, m₂, hrun₂, ?_, hwhole ▸ hends₂⟩
      rw [hrequests, hrun₁.asks_eq hn₁, hrun₂.asks_eq hn₂]
    · obtain ⟨stop, hforced⟩ := hends₁.stopped hstopped
      obtain ⟨hwhole, hrequests⟩ := forceDeep_of_error hforced
      refine .inl ⟨hstopped, ?_, ?_⟩
      · rw [hrequests, hrun₁.asks_eq hn₁]
      · rwa [hwhole, ← hforced]
  · rintro ⟨n₁, hn₁, asks₁, m₁, hrun₁, ⟨hstopped, rfl, hends⟩ | ⟨v, hgiven, n₂, hn₂, asks₂, m₂, hrun₂, rfl, hends⟩⟩
    · obtain ⟨hforced, henough⟩ := force_iff.2 ⟨n₁, hn₁, asks, m₁, hrun₁, hends⟩
      obtain ⟨stop, rfl⟩ := hends.stopped hstopped
      obtain ⟨hwhole, hrequests⟩ := forceDeep_of_error hforced
      exact ⟨hwhole, by rw [hrequests, hrun₁.asks_eq hn₁], henough⟩
    · obtain ⟨hforced, -⟩ := force_iff.2 ⟨n₁, hn₁, asks₁, m₁, hrun₁, .value hgiven⟩
      obtain ⟨hwhole, hrequests⟩ := forceDeep_of_ok hforced
      obtain ⟨hrest, henough⟩ := (normalize_iff (s := ⟨m₁.heap, m₁.events, s.world⟩)).2
        ⟨n₂, hn₂, asks₂, m₂, hrun₂, hends⟩
      exact ⟨hwhole.trans hrest, by rw [hrequests, hrun₁.asks_eq hn₁, hrun₂.asks_eq hn₂], henough⟩

theorem forceDeep_calm (hcalm : s.heap.Calm) (hended : forceDeep E r s = ofOutcome x s') : s'.heap.Calm := by
  rcases forceDeep_completes E r s with ⟨t, hexhausted⟩ | ⟨given, m, hrun, hidle, hends⟩
  · rw [hended] at hexhausted
    cases x <;> cases hexhausted
  · rw [hended] at hends
    obtain ⟨-, rfl⟩ := ends_ofOutcome_iff.1 hends
    exact hrun.calm hcalm hidle

end Host

end ByNeed
