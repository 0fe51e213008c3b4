/-
Traces of host procedures.

A trace says from which session a procedure comes to which end, and which requests for cells are made on the way. Traces
are put together one after the other, as procedures are. Code that a host runs on an empty stack demands cells and
deepens values as the host would do by forcing and normalizing them, so both have the same traces.
- `performs_drive`, `performs_bind`: the trace of a procedure that drives the evaluator, and of one after another.
- `drives_demand_bind`, `drives_deepen_bind`: the trace of code that begins with a demand or with deepening a value.
- `drives_traverse_append`: what is left to visit in two parts is visited one part after the other.
- `covers_cons`: going over cells takes them one after the other, each with everything below it.
-/
import ByNeed.Proofs.Traversal

namespace ByNeed

variable {W C V α β γ : Type}

/-- from a session, with some requests for cells, to an end -/
abbrev Trace (W C V α : Type) := Session W C V → List Ask → EStateM.Result Stop (Session W C V) α → Prop

namespace Trace

/-- what a procedure leaves behind, however it ends -/
def sessionOf : EStateM.Result Stop (Session W C V) α → Session W C V
  | .ok _ s | .error _ s => s

def pure (a : α) : Trace W C V α := fun s asks result => asks = [] ∧ result = .ok a s

/-- one after the other; the first error or abort is the end -/
def andThen (x : Trace W C V α) (y : α → Trace W C V β) : Trace W C V β := fun s asks result =>
  (∃ a s₁ asks₁ asks₂, x s asks₁ (.ok a s₁) ∧ y a s₁ asks₂ result ∧ asks = asks₁ ++ asks₂) ∨
    ∃ stop s', x s asks (.error stop s') ∧ result = .error stop s'

theorem pure_andThen (a : α) (y : α → Trace W C V β) : (pure a).andThen y = y a := by
  funext s asks result
  refine propext ⟨?_, fun hsecond => .inl ⟨a, s, [], asks, ⟨rfl, rfl⟩, hsecond, rfl⟩⟩
  rintro (⟨b, s₁, asks₁, asks₂, ⟨rfl, hsame⟩, hsecond, rfl⟩ | ⟨stop, s', ⟨-, hsame⟩, -⟩)
  · cases hsame
    exact hsecond
  · cases hsame

theorem andThen_pure (x : Trace W C V Unit) : (x.andThen fun _ => pure ()) = x := by
  funext s asks result
  refine propext ⟨?_, fun hx => ?_⟩
  · rintro (⟨_, s₁, asks₁, _, hx, ⟨rfl, rfl⟩, rfl⟩ | ⟨stop, s', hx, rfl⟩)
    · rwa [List.append_nil]
    · exact hx
  · cases result with
    | ok _ s' => exact .inl ⟨(), s', asks, [], hx, ⟨rfl, rfl⟩, (List.append_nil asks).symm⟩
    | error stop s' => exact .inr ⟨stop, s', hx, rfl⟩

theorem andThen_assoc (x : Trace W C V α) (y : α → Trace W C V β) (z : β → Trace W C V γ) :
    (x.andThen y).andThen z = x.andThen fun a => (y a).andThen z := by
  funext s asks result
  refine propext ⟨?_, ?_⟩
  · rintro (⟨b, s₂, _, asks₃, ⟨a, s₁, asks₁, asks₂, hfirst, hsecond, rfl⟩ | ⟨stop, s', -, hsame⟩, hthird, rfl⟩ |
      ⟨stop, s', ⟨a, s₁, asks₁, asks₂, hfirst, hsecond, rfl⟩ | ⟨stop', s'', hfirst, hsame⟩, rfl⟩)
    · exact .inl ⟨a, s₁, asks₁, asks₂ ++ asks₃, hfirst, .inl ⟨b, s₂, asks₂, asks₃, hsecond, hthird, rfl⟩,
        List.append_assoc ..⟩
    · cases hsame
    · exact .inl ⟨a, s₁, asks₁, asks₂, hfirst, .inr ⟨stop, s', hsecond, rfl⟩, rfl⟩
    · cases hsame
      exact .inr ⟨stop, s', hfirst, rfl⟩
  · rintro (⟨a, s₁, asks₁, _, hfirst, ⟨b, s₂, asks₂, asks₃, hsecond, hthird, rfl⟩ | ⟨stop, s', hsecond, rfl⟩, rfl⟩ |
      ⟨stop, s', hfirst, rfl⟩)
    · exact .inl ⟨b, s₂, asks₁ ++ asks₂, asks₃, .inl ⟨a, s₁, asks₁, asks₂, hfirst, hsecond, rfl⟩, hthird,
        (List.append_assoc ..).symm⟩
    · exact .inr ⟨stop, s', .inl ⟨a, s₁, asks₁, _, hfirst, hsecond, rfl⟩, rfl⟩
    · exact .inr ⟨stop, s', .inr ⟨stop, s', hfirst, rfl⟩, rfl⟩

/-- Where the first part makes a request, the second one has fewer of them left. -/
theorem andThen_congr {x : Trace W C V α} {y z : α → Trace W C V β} {s : Session W C V} {asks : List Ask}
    {result : EStateM.Result Stop (Session W C V) β} (hrequests : ∀ {s asks result}, x s asks result → asks ≠ [])
    (hsame : ∀ a s₁ asks₁ asks₂, x s asks₁ (.ok a s₁) → asks₂.length < asks.length →
      (y a s₁ asks₂ result ↔ z a s₁ asks₂ result)) :
    x.andThen y s asks result ↔ x.andThen z s asks result := by
  refine or_congr ?_ Iff.rfl
  refine exists_congr fun a => exists_congr fun s₁ => exists_congr fun asks₁ => exists_congr fun asks₂ => ?_
  refine and_congr_right fun hfirst => and_congr_left fun hwhole => hsame a s₁ asks₁ asks₂ hfirst ?_
  have hsome := List.length_pos_iff.2 (hrequests hfirst)
  rw [hwhole, List.length_append]
  omega

/-- Neither part makes more requests than the whole. -/
theorem andThen_congr_of_le {x x' : Trace W C V α} {y y' : α → Trace W C V β} {s : Session W C V} {asks : List Ask}
    {result : EStateM.Result Stop (Session W C V) β}
    (hfirst : ∀ asks₁ result, asks₁.length ≤ asks.length → (x s asks₁ result ↔ x' s asks₁ result))
    (hsecond : ∀ a s₁ asks₂, asks₂.length ≤ asks.length → (y a s₁ asks₂ result ↔ y' a s₁ asks₂ result)) :
    x.andThen y s asks result ↔ x'.andThen y' s asks result := by
  refine or_congr ?_ ?_
  · refine exists_congr fun a => exists_congr fun s₁ => exists_congr fun asks₁ => exists_congr fun asks₂ => ?_
    rw [← and_assoc, ← and_assoc]
    refine and_congr_left fun hwhole => ?_
    subst hwhole
    refine and_congr (hfirst asks₁ _ ?_) (hsecond a s₁ asks₂ ?_)
    · simp
    · simp
  · refine exists_congr fun stop => exists_congr fun s' => and_congr_left fun _ => ?_
    exact hfirst asks _ le_rfl

/-- cells that hold values keep them -/
def Keeps (x : Trace W C V α) : Prop :=
  ∀ s asks result (r : Ref) (v : V), x s asks result → s.heap[r]? = some (.value v) →
    (sessionOf result).heap[r]? = some (.value v)

theorem keeps_pure (a : α) : (pure a : Trace W C V α).Keeps := by
  rintro s asks result r v ⟨-, rfl⟩ hvalue
  exact hvalue

theorem Keeps.andThen {x : Trace W C V α} {y : α → Trace W C V β} (hfirst : x.Keeps) (hsecond : ∀ a, (y a).Keeps) :
    (x.andThen y).Keeps := by
  rintro s asks result r v (⟨a, s₁, asks₁, asks₂, hnow, hlater, -⟩ | ⟨stop, s', hnow, rfl⟩) hvalue
  · exact hsecond a s₁ asks₂ result r v hlater (hfirst s asks₁ _ r v hnow hvalue)
  · exact hfirst s asks _ r v hnow hvalue

end Trace

namespace Host

open Machine

/-- given enough steps, the procedure ends with `result`, having made these requests -/
def Performs (x : Nat → Host W C V α) (requests : Nat → Session W C V → List Ask) : Trace W C V α :=
  fun s asks result =>
    (∃ steps, ∀ n ≥ steps, x n s = result ∧ requests n s = asks) ∧ ∀ s', result ≠ .error .exhausted s'

/-- a procedure that has not run out of steps does the same when it is given more of them -/
def Steady (x : Nat → Host W C V α) (requests : Nat → Session W C V → List Ask) : Prop :=
  ∀ n k s, n ≤ k → (∀ s', x n s ≠ .error .exhausted s') → x k s = x n s ∧ requests k s = requests n s

def thenAsks (x : Nat → Host W C V α) (first : Nat → Session W C V → List Ask)
    (second : α → Nat → Session W C V → List Ask) (n : Nat) (s : Session W C V) : List Ask :=
  first n s ++
    match x n s with
    | .ok a s' => second a n s'
    | .error _ _ => []

/-- the evaluator comes from `control` to a halt from which the answer is read off -/
def Drives (E : Engine Empty C V) (control : Control Empty C V)
    (answer : Control Empty C V → Except Stop (Outcome α)) : Trace W C V α :=
  fun s asks result => ∃ n m, Halts E n asks ⟨s.heap, s.events, control, []⟩ m ∧
    readOff answer s.world m = result ∧ ∀ s', result ≠ .error .exhausted s'

def driveAsks (E : Engine Empty C V) (control : Control Empty C V) (n : Nat) (s : Session W C V) : List Ask :=
  Machine.asks E n ⟨s.heap, s.events, control, []⟩

section

variable {x : Nat → Host W C V α} {f : Nat → α → Host W C V β} {first : Nat → Session W C V → List Ask}
  {second : α → Nat → Session W C V → List Ask} {n : Nat} {s : Session W C V} {asks : List Ask}

theorem Steady.performs (hsteady : Steady x first) (henough : ∀ s', x n s ≠ .error .exhausted s') :
    Performs x first s (first n s) (x n s) :=
  ⟨⟨n, fun k hk => hsteady n k s hk henough⟩, henough⟩

theorem steady_pure (a : α) : Steady (fun _ => (Pure.pure a : Host W C V α)) fun _ _ => [] :=
  fun _ _ _ _ _ => ⟨rfl, rfl⟩

theorem performs_pure (a : α) : Performs (fun _ => (Pure.pure a : Host W C V α)) (fun _ _ => []) = Trace.pure a := by
  funext s asks result
  refine propext ⟨fun ⟨⟨n, hperformed⟩, _⟩ => ?_, ?_⟩
  · obtain ⟨hended, hrequests⟩ := hperformed n le_rfl
    exact ⟨hrequests.symm, hended.symm⟩
  · rintro ⟨rfl, rfl⟩
    exact ⟨⟨0, fun _ _ => ⟨rfl, rfl⟩⟩, nofun⟩

theorem Steady.bind (hsteady : Steady x first) (hlater : ∀ a, Steady (fun n => f n a) (second a)) :
    Steady (fun n => x n >>= f n) (thenAsks x first second) := by
  intro n k s hk henough
  have hgoing : ∀ s', x n s ≠ .error .exhausted s' := fun s' hexhausted =>
    henough s' (by simp only [Bind.bind, EStateM.bind, hexhausted])
  obtain ⟨hsame, hrequests⟩ := hsteady n k s hk hgoing
  cases hended : x n s with
  | ok a s₁ =>
    have hrest : ∀ s', f n a s₁ ≠ .error .exhausted s' := fun s' hexhausted =>
      henough s' (by simp only [Bind.bind, EStateM.bind, hended, hexhausted])
    obtain ⟨hsame', hrequests'⟩ := hlater a n k s₁ hk hrest
    rw [hended] at hsame
    simp only [Bind.bind, EStateM.bind, thenAsks, hended, hsame, hsame', hrequests, hrequests', and_self]
  | error stop s₁ =>
    rw [hended] at hsame
    simp only [Bind.bind, EStateM.bind, thenAsks, hended, hsame, hrequests, and_self]

/-- **One procedure after the other.** -/
theorem performs_bind (hsteady : Steady x first) (hlater : ∀ a, Steady (fun n => f n a) (second a)) :
    Performs (fun n => x n >>= f n) (thenAsks x first second) =
      (Performs x first).andThen fun a => Performs (fun n => f n a) (second a) := by
  funext s asks result
  refine propext ⟨?_, ?_⟩
  · rintro ⟨⟨n, hperformed⟩, henough⟩
    obtain ⟨hended, hrequests⟩ := hperformed n le_rfl
    -- had the first part run out of steps, so would the whole
    have hgoing : ∀ s', x n s ≠ .error .exhausted s' := fun s' hexhausted =>
      henough s' (by rw [← hended]; simp only [Bind.bind, EStateM.bind, hexhausted])
    have hperforms := hsteady.performs hgoing
    cases hbegun : x n s with
    | ok a s₁ =>
      simp only [Bind.bind, EStateM.bind, hbegun] at hended
      simp only [thenAsks, hbegun] at hrequests
      rw [hbegun] at hperforms
      subst hended
      exact .inl ⟨a, s₁, first n s, second a n s₁, hperforms, Steady.performs (hlater a) henough, hrequests.symm⟩
    | error stop s₁ =>
      simp only [Bind.bind, EStateM.bind, hbegun] at hended
      simp only [thenAsks, hbegun, List.append_nil] at hrequests
      rw [hbegun, hrequests] at hperforms
      exact .inr ⟨stop, s₁, hperforms, hended.symm⟩
  · rintro (⟨a, s₁, asks₁, asks₂, ⟨⟨n₁, hfirst'⟩, -⟩, ⟨⟨n₂, hsecond'⟩, henough⟩, rfl⟩ |
      ⟨stop, s', ⟨⟨n, hfirst'⟩, henough⟩, rfl⟩)
    · refine ⟨⟨max n₁ n₂, fun n hn => ?_⟩, henough⟩
      obtain ⟨hended₁, hrequests₁⟩ := hfirst' n (le_of_max_le_left hn)
      obtain ⟨hended₂, hrequests₂⟩ := hsecond' n (le_of_max_le_right hn)
      simp only [Bind.bind, EStateM.bind, thenAsks, hended₁, hended₂, hrequests₁, hrequests₂, and_self]
    · refine ⟨⟨n, fun k hk => ?_⟩, fun s'' hsame => henough s'' (by cases hsame; rfl)⟩
      obtain ⟨hended, hrequests⟩ := hfirst' k hk
      simp only [Bind.bind, EStateM.bind, thenAsks, hended, hrequests, List.append_nil, and_self]

end

theorem thenAsks_nil (x : Nat → Host W C V α) (first : Nat → Session W C V → List Ask) :
    thenAsks x first (fun _ _ _ => []) = first := by
  funext n s
  unfold thenAsks
  cases x n s <;> simp

/-- a procedure whose own value is of no interest -/
theorem Steady.seqPure {x : Nat → Host W C V α} {first : Nat → Session W C V → List Ask} (hsteady : Steady x first)
    (b : β) : Steady (fun n => do let _ ← x n; return b) first := by
  have hwhole := hsteady.bind fun _ => steady_pure b
  rwa [thenAsks_nil] at hwhole

theorem performs_seqPure {x : Nat → Host W C V α} {first : Nat → Session W C V → List Ask} (hsteady : Steady x first)
    (b : β) :
    Performs (fun n => do let _ ← x n; return b) first = (Performs x first).andThen fun _ => Trace.pure b := by
  have hwhole := performs_bind hsteady fun _ => steady_pure b
  rwa [thenAsks_nil, performs_pure] at hwhole

/-! ## Driving the evaluator -/

section

variable (E : Engine Empty C V) (control : Control Empty C V) (answer : Control Empty C V → Except Stop (Outcome α))

theorem steady_drive : Steady (fun n => (drive { E with fuel := n } control answer >>= ofOutcome : Host W C V α))
    (driveAsks E control) := by
  intro n k s hk henough
  obtain ⟨j, hj, asks, m, hrun, hread, -⟩ := drive_iff.1 ⟨rfl, henough⟩
  have hmore := (drive_iff (E := { E with fuel := k })).2 ⟨j, hj.trans_le hk, asks, m, hrun.refuel k, hread, henough⟩
  refine ⟨hmore.1, ?_⟩
  rw [driveAsks, driveAsks, (hrun.refuel E.fuel).asks_eq hj, (hrun.refuel E.fuel).asks_eq (hj.trans_le hk)]

theorem performs_drive :
    Performs (fun n => (drive { E with fuel := n } control answer >>= ofOutcome : Host W C V α)) (driveAsks E control) =
      Drives E control answer := by
  funext s asks result
  refine propext ⟨?_, ?_⟩
  · rintro ⟨⟨n, hperformed⟩, henough⟩
    obtain ⟨hended, hrequests⟩ := hperformed n le_rfl
    obtain ⟨k, hk, asks', m, hrun, hread, -⟩ := drive_iff.1 ⟨hended, henough⟩
    obtain rfl : asks' = asks := ((hrun.refuel E.fuel).asks_eq hk).symm.trans hrequests
    exact ⟨k, m, hrun.refuel E.fuel, hread, henough⟩
  · rintro ⟨k, m, hrun, hread, henough⟩
    refine ⟨⟨k + 1, fun n hn => ⟨?_, hrun.asks_eq hn⟩⟩, henough⟩
    exact ((drive_iff (E := { E with fuel := n })).2 ⟨k, hn, asks, m, hrun.refuel n, hread, henough⟩).1

end

theorem keeps_drives (E : Engine Empty C V) (control : Control Empty C V)
    (answer : Control Empty C V → Except Stop (Outcome α)) : (Drives (W := W) E control answer).Keeps := by
  rintro s asks result r v ⟨n, m, hrun, rfl, -⟩ hvalue
  have hleft : Trace.sessionOf (readOff answer s.world m) = ⟨m.heap, m.events, s.world⟩ := by
    unfold readOff
    rcases answer m.control with stop | e | a <;> rfl
  rw [hleft]
  exact hrun.keeps rfl hvalue

def Forces (E : Engine Empty C V) (r : Ref) : Trace W C V V :=
  Performs (fun n => force { E with fuel := n } r) (driveAsks E (.demand r))

def Normalizes (E : Engine Empty C V) (v : V) : Trace W C V V :=
  Performs (fun n => normalize { E with fuel := n } v) (driveAsks E (.traverse v (E.parts v)))

/-- forcing a cell and everything below it -/
def ForcesDeep (E : Engine Empty C V) (r : Ref) : Trace W C V V :=
  Performs (fun n => forceDeep { E with fuel := n } r) fun n => deepAsks { E with fuel := n } r

/-- the value of what code leaves -/
def Resolves (E : Engine Empty C V) : Tail V → Trace W C V V
  | .value v => Trace.pure v
  | .cell r => Forces E r

def resolveAsks (E : Engine Empty C V) : Tail V → Nat → Session W C V → List Ask
  | .value _, _, _ => []
  | .cell r, n, s => driveAsks E (.demand r) n s

def whnfAsks (E : Engine Empty C V) (c : C) : Nat → Session W C V → List Ask :=
  thenAsks (fun n => call { E with fuel := n } c) (driveAsks E (.run (E.body c))) (resolveAsks E)

section

variable {E : Engine Empty C V} {r : Ref} {v top : V}

theorem forces_eq : Forces (W := W) E r = Drives E (.demand r) outcomeOf :=
  performs_drive E (.demand r) outcomeOf

theorem normalizes_eq : Normalizes (W := W) E v = Drives E (.traverse v (E.parts v)) outcomeOf :=
  performs_drive E (.traverse v (E.parts v)) outcomeOf

theorem deepAsks_eq : (fun n => deepAsks (W := W) { E with fuel := n } r) =
    thenAsks (fun n => force { E with fuel := n } r) (driveAsks E (.demand r))
      fun v => driveAsks E (.traverse v (E.parts v)) := by
  funext n s
  simp only [deepAsks, thenAsks, driveAsks, asks_refuel]
  cases force { E with fuel := n } r s <;> rfl

theorem steady_forceDeep : Steady (fun n => (forceDeep { E with fuel := n } r : Host W C V V))
    fun n => deepAsks { E with fuel := n } r := by
  rw [deepAsks_eq]
  exact (steady_drive E (.demand r) outcomeOf).bind fun v => steady_drive E (.traverse v (E.parts v)) outcomeOf

theorem forcesDeep_eq : ForcesDeep (W := W) E r = (Forces E r).andThen (Normalizes E) := by
  rw [ForcesDeep, deepAsks_eq]
  exact performs_bind (steady_drive E (.demand r) outcomeOf) fun v =>
    steady_drive E (.traverse v (E.parts v)) outcomeOf

theorem steady_resolve (E : Engine Empty C V) (t : Tail V) :
    Steady (fun n => (resolve { E with fuel := n } t : Host W C V V)) (resolveAsks E t) := by
  cases t with
  | value v => exact steady_pure v
  | cell r => exact steady_drive E (.demand r) outcomeOf

theorem performs_resolve (E : Engine Empty C V) (t : Tail V) :
    Performs (fun n => (resolve { E with fuel := n } t : Host W C V V)) (resolveAsks E t) = Resolves E t := by
  cases t with
  | value v => exact performs_pure v
  | cell r => rfl

theorem steady_whnf (E : Engine Empty C V) (c : C) :
    Steady (fun n => (whnf { E with fuel := n } c : Host W C V V)) (whnfAsks E c) :=
  (steady_drive E (.run (E.body c)) tailOf).bind (steady_resolve E)

/-- what code leaves is resolved after it has run -/
theorem performs_whnf (E : Engine Empty C V) (c : C) :
    Performs (fun n => (whnf { E with fuel := n } c : Host W C V V)) (whnfAsks E c) =
      (Drives E (.run (E.body c)) tailOf).andThen (Resolves E) := by
  have hwhole := performs_bind (steady_drive (W := W) E (.run (E.body c)) tailOf) (steady_resolve E)
  simp only [performs_drive, performs_resolve] at hwhole
  exact hwhole

/-- forcing a cell makes a request -/
theorem forces_requests {s : Session W C V} {asks : List Ask} {result : EStateM.Result Stop (Session W C V) V}
    (hforces : Forces E r s asks result) : asks ≠ [] := by
  rw [forces_eq] at hforces
  obtain ⟨n, m, hrun, -⟩ := hforces
  obtain ⟨-, houter, -⟩ := hrun.demand_cases
  rintro rfl
  cases houter

theorem forcesDeep_requests {s : Session W C V} {asks : List Ask} {result : EStateM.Result Stop (Session W C V) V}
    (hforces : ForcesDeep E r s asks result) : asks ≠ [] := by
  rw [forcesDeep_eq] at hforces
  rcases hforces with ⟨v, s₁, asks₁, asks₂, hfirst, -, rfl⟩ | ⟨stop, s', hfirst, -⟩
  · exact List.append_ne_nil_of_left_ne_nil (forces_requests hfirst) _
  · exact forces_requests hfirst

/-- a cell that has been forced holds its value -/
theorem forces_value {s s' : Session W C V} {asks : List Ask} (hforces : Forces E r s asks (.ok v s')) :
    s'.heap[r]? = some (.value v) := by
  rw [forces_eq] at hforces
  obtain ⟨n, m, hrun, hends⟩ := hforces
  obtain ⟨hgiven, rfl⟩ := (ends_ofOutcome_iff (x := .ok v)).1 (ends_iff.2 hends)
  obtain ⟨-, -, ⟨h', events', o, rfl, hanswer⟩ | ⟨h', events', text, rfl⟩⟩ := hrun.demand_cases
  · cases hgiven
    exact Heap.claim_ok_iff.1 hanswer
  · cases hgiven

theorem keeps_forces (E : Engine Empty C V) (r : Ref) : (Forces (W := W) E r).Keeps := by
  rw [forces_eq]
  exact keeps_drives E (.demand r) outcomeOf

theorem keeps_normalizes (E : Engine Empty C V) (v : V) : (Normalizes (W := W) E v).Keeps := by
  rw [normalizes_eq]
  exact keeps_drives E (.traverse v (E.parts v)) outcomeOf

theorem keeps_forcesDeep (E : Engine Empty C V) (r : Ref) : (ForcesDeep (W := W) E r).Keeps := by
  rw [forcesDeep_eq]
  exact (keeps_forces E r).andThen (keeps_normalizes E)

theorem keeps_resolves (E : Engine Empty C V) (t : Tail V) : (Resolves (W := W) E t).Keeps := by
  cases t with
  | value v => exact Trace.keeps_pure v
  | cell r => exact keeps_forces E r

/-- What follows a force has fewer requests left, and the cell holds its value to the end. -/
theorem forces_andThen_congr {x y : V → Trace W C V α} {s : Session W C V} {asks : List Ask}
    {result : EStateM.Result Stop (Session W C V) α} (hkeeps : ∀ v, (x v).Keeps) (hkeeps' : ∀ v, (y v).Keeps)
    (hsame : ∀ v s₁ asks₁, asks₁.length < asks.length → (Trace.sessionOf result).heap[r]? = some (.value v) →
      (x v s₁ asks₁ result ↔ y v s₁ asks₁ result)) :
    (Forces E r).andThen x s asks result ↔ (Forces E r).andThen y s asks result := by
  refine Trace.andThen_congr forces_requests fun v s₁ _ asks₁ hforced hfewer => ?_
  have hvalue := forces_value hforced
  constructor
  · intro hlater
    exact (hsame v s₁ asks₁ hfewer (hkeeps v s₁ asks₁ result r v hlater hvalue)).1 hlater
  · intro hlater
    exact (hsame v s₁ asks₁ hfewer (hkeeps' v s₁ asks₁ result r v hlater hvalue)).2 hlater

/-! ## Code that waits -/

/-- Code that waits goes on with a value, and ends as it must with an error or an abort. -/
theorem resume_iff {m : Machine C V} {f : V → Comp Empty C V (Next C V)} {world : W} {asks : List Ask}
    {result : EStateM.Result Stop (Session W C V) (Tail V)} (hidle : m.stack = [])
    (hanswered : (∃ o, m.control = .give o) ∨ ∃ text, m.control = .unwind text) :
    (∃ n m', Halts E n asks (m.onto [.resume fun o => (Comp.ofOutcome o).bind f]) m' ∧
        readOff tailOf world m' = result ∧ ∀ s', result ≠ .error .exhausted s') ↔
      (∃ v, m.control = .give (.ok v) ∧ Drives E (.run (f v)) tailOf ⟨m.heap, m.events, world⟩ asks result) ∨
        ∃ stop s', Ends world m (.error stop s') ∧ asks = [] ∧ result = .error stop s' := by
  obtain ⟨h, events, control, stack⟩ := m
  cases hidle
  -- an error, a value, an abort: only with a value does the waiting code run
  rcases hanswered with ⟨e | v, hgiven⟩ | ⟨text, hunwound⟩
  · cases hgiven
    constructor
    · rintro ⟨n, m', hrun, rfl, -⟩
      obtain ⟨k, rfl, hfailing⟩ := (halts_quiet_iff rfl rfl).1 hrun
      obtain ⟨k, rfl, hfailed⟩ := (halts_quiet_iff rfl rfl).1 hfailing
      obtain ⟨rfl, rfl, rfl⟩ := (halts_of_halted rfl).1 hfailed
      exact .inr ⟨.failed e, _, .error rfl, rfl, rfl⟩
    · rintro (⟨v, hgiven, -⟩ | ⟨stop, s', hends, rfl, rfl⟩)
      · cases hgiven
      · cases hends with
        | error hgiven =>
          cases hgiven
          have hfailing : Halts E 1 [] ⟨h, events, .run (.fail e), []⟩ ⟨h, events, .ended (.error e), []⟩ :=
            (halts_quiet_iff rfl rfl).2 ⟨0, rfl, .here rfl⟩
          exact ⟨2, _, (halts_quiet_iff rfl rfl).2 ⟨1, rfl, hfailing⟩, rfl, nofun⟩
        | abort hunwound => cases hunwound
  · cases hgiven
    constructor
    · rintro ⟨n, m', hrun, hread, henough⟩
      obtain ⟨k, rfl, hlater⟩ := (halts_quiet_iff rfl rfl).1 hrun
      exact .inl ⟨v, rfl, k, m', hlater, hread, henough⟩
    · rintro (⟨w, hgiven, k, m', hlater, hread, henough⟩ | ⟨stop, s', hends, -⟩)
      · cases hgiven
        exact ⟨k + 1, m', (halts_quiet_iff rfl rfl).2 ⟨k, rfl, hlater⟩, hread, henough⟩
      · cases hends with
        | error hgiven => cases hgiven
        | abort hunwound => cases hunwound
  · cases hunwound
    constructor
    · rintro ⟨n, m', hrun, rfl, -⟩
      obtain ⟨k, rfl, hcut⟩ := (halts_quiet_iff rfl rfl).1 hrun
      obtain ⟨rfl, rfl, rfl⟩ := (halts_of_halted rfl).1 hcut
      exact .inr ⟨.aborted text, _, .abort rfl, rfl, rfl⟩
    · rintro (⟨v, hgiven, -⟩ | ⟨stop, s', hends, rfl, rfl⟩)
      · cases hgiven
      · cases hends with
        | error hgiven => cases hgiven
        | abort hunwound =>
          cases hunwound
          have hcut : Halts E 0 [] ⟨h, events, .unwind text, []⟩ ⟨h, events, .unwind text, []⟩ := .here rfl
          exact ⟨1, _, (halts_quiet_iff rfl rfl).2 ⟨0, rfl, hcut⟩, rfl, nofun⟩

/-- Code that waits for an outcome on an empty stack goes on as a host does that gets the value. -/
theorem drives_bind {t : Comp Empty C V V} {control : Control Empty C V}
    (hwaits : ∀ h events (f : V → Comp Empty C V (Next C V)), Machine.step E ⟨h, events, .run (t.bind f), []⟩ =
      ⟨h, events, control, [.resume fun o => (Comp.ofOutcome o).bind f]⟩)
    (hanswers : ∀ {n asks h events m}, Halts E n asks ⟨h, events, control, []⟩ m →
      (∃ o, m.control = .give o) ∨ ∃ text, m.control = .unwind text)
    (f : V → Comp Empty C V (Next C V)) :
    Drives (W := W) E (.run (t.bind f)) tailOf =
      (Drives E control outcomeOf).andThen fun v => Drives E (.run (f v)) tailOf := by
  funext s asks result
  have hnested : Machine.step E ⟨s.heap, s.events, .run (t.bind f), []⟩ =
      (⟨s.heap, s.events, control, []⟩ : Machine C V).onto [.resume fun o => (Comp.ofOutcome o).bind f] :=
    hwaits s.heap s.events f
  have hquiet : ∀ n m, Halts E n asks ⟨s.heap, s.events, .run (t.bind f), []⟩ m ↔ ∃ k, n = k + 1 ∧
      Halts E k asks ((⟨s.heap, s.events, control, []⟩ : Machine C V).onto
        [.resume fun o => (Comp.ofOutcome o).bind f]) m :=
    fun n m => hnested ▸ halts_quiet_iff rfl rfl
  refine propext ⟨?_, ?_⟩
  · rintro ⟨n, m, hrun, hread, henough⟩
    obtain ⟨k, rfl, hbegun⟩ := (hquiet n m).1 hrun
    -- the run above the waiting code is cut off where it has its outcome
    obtain ⟨n₁, n₂, asks₁, asks₂, m₁, hfirst, hsecond, rfl, rfl⟩ := (halts_onto_iff rfl).1 hbegun
    rcases (resume_iff (stack_of_halted hfirst.halted) (hanswers hfirst)).1 ⟨n₂, m, hsecond, hread, henough⟩ with
      ⟨v, hgiven, hlater⟩ | ⟨stop, s', hends, rfl, rfl⟩
    · exact .inl ⟨v, ⟨m₁.heap, m₁.events, s.world⟩, asks₁, asks₂, ⟨n₁, m₁, hfirst, ends_iff.1 (.value hgiven)⟩, hlater,
        rfl⟩
    · rw [List.append_nil]
      exact .inr ⟨stop, s', ⟨n₁, m₁, hfirst, ends_iff.1 hends⟩, rfl⟩
  · rintro (⟨v, s₁, asks₁, asks₂, ⟨n₁, m₁, hfirst, hends⟩, hlater, rfl⟩ | ⟨stop, s', ⟨n₁, m₁, hfirst, hends⟩, rfl⟩)
    · obtain ⟨hgiven, rfl⟩ := (ends_ofOutcome_iff (x := .ok v)).1 (ends_iff.2 hends)
      obtain ⟨k, m, hsecond, hread, henough⟩ :=
        (resume_iff (stack_of_halted hfirst.halted) (hanswers hfirst)).2 (.inl ⟨v, hgiven, hlater⟩)
      have hwhole := (halts_onto_iff rfl).2 ⟨n₁, k, asks₁, asks₂, m₁, hfirst, hsecond, rfl, rfl⟩
      exact ⟨_, m, (hquiet _ m).2 ⟨_, rfl, hwhole⟩, hread, henough⟩
    · obtain ⟨k, m, hsecond, hread, henough⟩ := (resume_iff (E := E) (f := f) (stack_of_halted hfirst.halted)
        (hanswers hfirst)).2 (.inr ⟨stop, s', ends_iff.2 hends, rfl, rfl⟩)
      have hwhole := (halts_onto_iff rfl).2 ⟨n₁, k, asks, [], m₁, hfirst, hsecond, rfl, (List.append_nil asks).symm⟩
      exact ⟨_, m, (hquiet _ m).2 ⟨_, rfl, hwhole⟩, hread, henough⟩

/-- a demand is a force -/
theorem drives_demand_bind (f : V → Comp Empty C V (Next C V)) :
    Drives (W := W) E (.run ((Comp.demand r).bind f)) tailOf =
      (Forces E r).andThen fun v => Drives E (.run (f v)) tailOf := by
  rw [forces_eq]
  refine drives_bind (fun _ _ _ => rfl) (fun hrun => ?_) f
  obtain ⟨-, -, ⟨h', events', o, rfl, -⟩ | ⟨h', events', text, rfl⟩⟩ := hrun.demand_cases
  · exact .inl ⟨o, rfl⟩
  · exact .inr ⟨text, rfl⟩

/-- deepening a value is normalizing it -/
theorem drives_deepen_bind (f : V → Comp Empty C V (Next C V)) :
    Drives (W := W) E (.run ((Comp.deepen v).bind f)) tailOf =
      (Normalizes E v).andThen fun w => Drives E (.run (f w)) tailOf := by
  rw [normalizes_eq]
  exact drives_bind (fun _ _ _ => rfl) (fun hrun => hrun.traverse_answers) f

/-- code gives way to other code -/
theorem drives_code (c : C) :
    Drives (W := W) E (.run (.done (.code c))) tailOf = Drives E (.run (E.body c)) tailOf := by
  funext s asks result
  refine propext ⟨?_, ?_⟩
  · rintro ⟨n, m, hrun, hread⟩
    obtain ⟨k, rfl, hlater⟩ := (halts_quiet_iff rfl rfl).1 hrun
    exact ⟨k, m, hlater, hread⟩
  · rintro ⟨k, m, hlater, hread⟩
    exact ⟨k + 1, m, (halts_quiet_iff rfl rfl).2 ⟨k, rfl, hlater⟩, hread⟩

theorem drives_value (v : V) :
    Drives (W := W) E (.run (.done (.value v))) tailOf = Trace.pure (.value v) := by
  funext s asks result
  refine propext ⟨?_, ?_⟩
  · rintro ⟨n, m, hrun, rfl, -⟩
    obtain ⟨k, rfl, hlater⟩ := (halts_quiet_iff rfl rfl).1 hrun
    obtain ⟨rfl, rfl, rfl⟩ := (halts_of_halted rfl).1 hlater
    exact ⟨rfl, rfl⟩
  · rintro ⟨rfl, rfl⟩
    let m : Machine C V := ⟨s.heap, s.events, .ended (.ok (.value v)), []⟩
    have hended : Halts E 0 [] m m := .here rfl
    exact ⟨1, m, (halts_quiet_iff rfl rfl).2 ⟨0, rfl, hended⟩, rfl, nofun⟩

/-! ## Deep forcing -/

theorem drives_traverse_nil : Drives (W := W) E (.traverse top []) outcomeOf = Trace.pure top := by
  funext s asks result
  refine propext ⟨?_, ?_⟩
  · rintro ⟨n, m, hrun, rfl, -⟩
    obtain ⟨rfl, rfl, rfl⟩ := halts_traverse_nil_iff.1 hrun
    exact ⟨rfl, rfl⟩
  · rintro ⟨rfl, rfl⟩
    exact ⟨1, _, halts_traverse_nil_iff.2 ⟨rfl, rfl, rfl⟩, rfl, nofun⟩

theorem drives_traverse_cons (work : List Ref) :
    Drives (W := W) E (.traverse top (r :: work)) outcomeOf =
      (Forces E r).andThen fun v => Drives E (.traverse top (E.parts v ++ work)) outcomeOf := by
  rw [forces_eq]
  funext s asks result
  refine propext ⟨?_, ?_⟩
  · rintro ⟨n, m, hrun, hends⟩
    obtain ⟨n₁, asks₁, m₁, hfirst, hlater⟩ := halts_traverse_cons_iff.1 hrun
    rcases hlater with ⟨v, n₂, asks₂, hgiven, hlater, rfl, rfl⟩ | ⟨hstopped, rfl, rfl, rfl⟩
    · exact .inl ⟨v, ⟨m₁.heap, m₁.events, s.world⟩, asks₁, asks₂, ⟨n₁, m₁, hfirst, ends_iff.1 (.value hgiven)⟩,
        ⟨n₂, m, hlater, hends⟩, rfl⟩
    · obtain ⟨stop, rfl⟩ := (ends_iff.2 hends).stopped hstopped
      exact .inr ⟨stop, _, ⟨n₁, m, hfirst, hends⟩, rfl⟩
  · rintro (⟨v, s₁, asks₁, asks₂, ⟨n₁, m₁, hfirst, hends⟩, ⟨n₂, m, hlater, hends'⟩, rfl⟩ |
      ⟨stop, s', ⟨n₁, m₁, hfirst, hends⟩, rfl⟩)
    · obtain ⟨hgiven, rfl⟩ := (ends_ofOutcome_iff (x := .ok v)).1 (ends_iff.2 hends)
      exact ⟨_, m, halts_traverse_cons_iff.2 ⟨n₁, asks₁, m₁, hfirst, .inl ⟨v, n₂, asks₂, hgiven, hlater, rfl, rfl⟩⟩,
        hends'⟩
    · have hstopped : m₁.Stopped := by
        cases ends_iff.2 hends with
        | error hgiven => exact .inl ⟨_, hgiven⟩
        | abort hunwound => exact .inr ⟨_, hunwound⟩
      exact ⟨_, m₁, halts_traverse_cons_iff.2 ⟨n₁, asks, m₁, hfirst, .inr ⟨hstopped, rfl, rfl, rfl⟩⟩, hends⟩

/-- **In two parts.** What is left to visit in two parts is visited one part after the other. -/
theorem drives_traverse_append (top top' : V) (work work' : List Ref) :
    Drives (W := W) E (.traverse top (work ++ work')) outcomeOf =
      (Drives E (.traverse top' work) outcomeOf).andThen fun _ => Drives E (.traverse top work') outcomeOf := by
  funext s asks result
  refine propext ?_
  -- every cell that is visited takes a request, so there are fewer of them left afterwards
  induction hn : asks.length using Nat.strongRecOn generalizing s asks work with
  | ind n ih =>
    subst hn
    cases work with
    | nil => rw [List.nil_append, drives_traverse_nil, Trace.pure_andThen]
    | cons r work =>
      rw [List.cons_append, drives_traverse_cons, drives_traverse_cons, Trace.andThen_assoc]
      refine Trace.andThen_congr forces_requests fun v s₁ asks₁ asks₂ _ hfewer => ?_
      rw [← List.append_assoc]
      exact ih asks₂.length hfewer (E.parts v ++ work) s₁ asks₂ rfl

/-- going over cells and everything below them; `top` has no part in it -/
def Covers (E : Engine Empty C V) (top : V) (work : List Ref) : Trace W C V Unit :=
  (Drives E (.traverse top work) outcomeOf).andThen fun _ => Trace.pure ()

theorem covers_nil : Covers (W := W) E top [] = Trace.pure () := by
  rw [Covers, drives_traverse_nil, Trace.pure_andThen]

theorem covers_append (top top' : V) (work work' : List Ref) : Covers (W := W) E top (work ++ work') =
    (Covers E top' work).andThen fun _ => Covers E top work' := by
  simp only [Covers, drives_traverse_append top top', Trace.andThen_assoc, Trace.pure_andThen]

theorem covers_cons (work : List Ref) : Covers (W := W) E top (r :: work) =
    (Forces E r).andThen fun v => (Covers E v (E.parts v)).andThen fun _ => Covers E top work := by
  have hparts : ∀ v, Covers (W := W) E top (E.parts v ++ work) =
      (Covers E v (E.parts v)).andThen fun _ => Covers E top work := fun v => covers_append top v _ work
  rw [Covers, drives_traverse_cons, Trace.andThen_assoc]
  exact congrArg _ (funext hparts)

theorem normalizes_covers : Normalizes (W := W) E v = (Covers E v (E.parts v)).andThen fun _ => Trace.pure v := by
  rw [normalizes_eq, Covers, Trace.andThen_assoc]
  simp only [Trace.pure_andThen]
  conv_lhs => rw [← List.append_nil (E.parts v), drives_traverse_append v v, drives_traverse_nil]

theorem forcesDeep_covers : ForcesDeep (W := W) E r =
    (Forces E r).andThen fun v => (Covers E v (E.parts v)).andThen fun _ => Trace.pure v := by
  rw [forcesDeep_eq]
  exact congrArg _ (funext fun v => normalizes_covers)

end

end Host

end ByNeed
