/-
Normalizing lists.

A list is normalized by a loop that goes along its spine and keeps nothing on the stack. The structure of a list says
the same by recursion (`Structural`): a `cons` is normalized like a pair, first the head and then the tail, and the tail
by forcing it and normalizing the list that it holds. What the code of elements and tails does is left open: it may
record events, fail, or ask for any cells.
- `loop_cons`, `structural_cons`, `deep_cons`: the loop, the recursion and deep forcing take a `cons` apart in one way.
- `Spinal.agree`: by induction on the requests that are left, ways to normalize that take a `cons` apart like this agree
  on a list if they agree on what can be the end of it.
- `normalizeList_structural`: the loop does what the recursion does, and what deep forcing does.
-/
import ByNeed.Proofs.Traces
import ByNeed.Demo.Reading

namespace ByNeed.Demo

open Host

variable {W α β : Type}

/-- an engine with the loop along the spine and with the parts of lists; all other code may do anything -/
structure HasLists (E : Engine Empty Code Value) : Prop where
  loop : ∀ v, E.body (.normalizeSpine v) = Task.normalizeSpine v
  parts : ∀ v, E.parts v = v.parts

theorem hasLists_engine (fuel : Nat) : HasLists (engine fuel) := ⟨fun _ => rfl, fun _ => rfl⟩

/-- normalizing a value by the structure of lists -/
inductive Structural (E : Engine Empty Code Value) : Value → Trace W Code Value Unit where
  /-- there is nothing to do at the end of a list -/
  | last {v : Value} {s : Session W Code Value} (hplain : ∀ head tail, v ≠ .cons head tail) :
      Structural E v s [] (.ok () s)
  | head {head tail : Ref} {s s' : Session W Code Value} {asks : List Ask} {stop : Stop}
      (hstops : ForcesDeep E head s asks (.error stop s')) : Structural E (.cons head tail) s asks (.error stop s')
  | tail {head tail : Ref} {s s₁ s' : Session W Code Value} {asks₁ asks₂ : List Ask} {v : Value} {stop : Stop}
      (hfirst : ForcesDeep E head s asks₁ (.ok v s₁)) (hstops : Forces E tail s₁ asks₂ (.error stop s')) :
      Structural E (.cons head tail) s (asks₁ ++ asks₂) (.error stop s')
  | cons {head tail : Ref} {s s₁ s₂ : Session W Code Value} {asks₁ asks₂ asks₃ : List Ask} {v list : Value}
      {result : EStateM.Result Stop (Session W Code Value) Unit} (hfirst : ForcesDeep E head s asks₁ (.ok v s₁))
      (hsecond : Forces E tail s₁ asks₂ (.ok list s₂)) (hrest : Structural E list s₂ asks₃ result) :
      Structural E (.cons head tail) s (asks₁ ++ (asks₂ ++ asks₃)) result

/-- the values along the spine, starting with a value at hand -/
inductive OnSpine (h : Heap Unit Code Value) : Value → Value → Prop where
  | here (v : Value) : OnSpine h v v
  | tail {head tail : Ref} {list v : Value} (hvalue : h[tail]? = some (.value list)) (hrest : OnSpine h list v) :
      OnSpine h (.cons head tail) v

def Loop (E : Engine Empty Code Value) (v : Value) : Trace W Code Value Unit :=
  Performs (fun n => do let _ ← Host.whnf { E with fuel := n } (.normalizeSpine v); return ())
    (whnfAsks E (.normalizeSpine v))

/-- everything below a value at hand -/
def Deep (E : Engine Empty Code Value) (v : Value) : Trace W Code Value Unit := Covers E v (E.parts v)

/-- the requests made by normalizing the list in a cell -/
def listAsks (E : Engine Empty Code Value) (xs : Ref) : Nat → Session W Code Value → List Ask :=
  thenAsks (fun n => Host.force { E with fuel := n } xs) (driveAsks E (.demand xs))
    fun v => whnfAsks E (.normalizeSpine v)

section

variable {E : Engine Empty Code Value}

/-! ## Taking lists apart -/

/-- the loop, followed by a value that does not depend on it -/
theorem performs_spine (hlists : HasLists E) (v : Value) (b : α) :
    Performs (fun n => (do let _ ← Host.whnf { E with fuel := n } (.normalizeSpine v); return b :
        Host W Code Value α)) (whnfAsks E (.normalizeSpine v)) =
      (Drives E (.run (Task.normalizeSpine v)) tailOf).andThen fun t =>
        (Resolves E t).andThen fun _ => Trace.pure b := by
  rw [performs_seqPure (steady_whnf E (.normalizeSpine v)), performs_whnf, Trace.andThen_assoc, hlists.loop]

theorem loop_eq (hlists : HasLists E) (v : Value) : Loop (W := W) E v =
    (Drives E (.run (Task.normalizeSpine v)) tailOf).andThen fun t => (Resolves E t).andThen fun _ => Trace.pure () :=
  performs_spine hlists v ()

/-- one round of the loop -/
theorem loop_cons (hlists : HasLists E) (head tail : Ref) : Loop (W := W) E (.cons head tail) =
    (ForcesDeep E head).andThen fun _ => (Forces E tail).andThen (Loop E) := by
  have hround : Task.normalizeSpine (.cons head tail) = (Comp.demand head).bind fun v =>
      (Comp.deepen v).bind fun _ => (Comp.demand tail).bind fun list => .done (.code (.normalizeSpine list)) := rfl
  have hloop : (Loop E : Value → Trace W Code Value Unit) = fun v => _ := funext (loop_eq hlists)
  rw [hloop, forcesDeep_eq]
  simp only [hround, drives_demand_bind, drives_deepen_bind, drives_code, hlists.loop, Trace.andThen_assoc]

theorem structural_cons (head tail : Ref) : Structural (W := W) E (.cons head tail) =
    (ForcesDeep E head).andThen fun _ => (Forces E tail).andThen (Structural E) := by
  funext s asks result
  refine propext ⟨fun hstructural => ?_, ?_⟩
  · cases hstructural with
    | last hplain => exact absurd rfl (hplain head tail)
    | head hstops => exact .inr ⟨_, _, hstops, rfl⟩
    | tail hfirst hstops => exact .inl ⟨_, _, _, _, hfirst, .inr ⟨_, _, hstops, rfl⟩, rfl⟩
    | cons hfirst hsecond hrest => exact .inl ⟨_, _, _, _, hfirst, .inl ⟨_, _, _, _, hsecond, hrest, rfl⟩, rfl⟩
  · rintro (⟨v, s₁, asks₁, _, hfirst, ⟨list, s₂, asks₂, asks₃, hsecond, hrest, rfl⟩ | ⟨stop, s', hstops, rfl⟩, rfl⟩ |
      ⟨stop, s', hstops, rfl⟩)
    · exact .cons hfirst hsecond hrest
    · exact .tail hfirst hstops
    · exact .head hstops

/-- the parts of a pair one after the other -/
theorem deep_cons (hlists : HasLists E) (head tail : Ref) : Deep (W := W) E (.cons head tail) =
    (ForcesDeep E head).andThen fun _ => (Forces E tail).andThen (Deep E) := by
  have hparts : E.parts (.cons head tail) = [head, tail] := hlists.parts _
  have htail : Covers (W := W) E (.cons head tail) [tail] = (Forces E tail).andThen (Deep E) := by
    rw [covers_cons, covers_nil]
    simp only [Trace.andThen_pure]
    rfl
  rw [Deep, hparts, covers_cons, htail, forcesDeep_covers]
  simp only [Trace.andThen_assoc, Trace.pure_andThen]

theorem loop_last (hlists : HasLists E) {v : Value} (hplain : ∀ head tail, v ≠ .cons head tail) :
    Loop (W := W) E v = Trace.pure () := by
  have hends : Task.normalizeSpine v = .done (.value v) := by
    cases v with
    | cons head tail => exact absurd rfl (hplain head tail)
    | _ => rfl
  rw [loop_eq hlists, hends, drives_value, Trace.pure_andThen]
  exact Trace.pure_andThen v _

theorem structural_last {v : Value} (hplain : ∀ head tail, v ≠ .cons head tail) :
    Structural (W := W) E v = Trace.pure () := by
  funext s asks result
  refine propext ⟨fun hstructural => ?_, ?_⟩
  · cases hstructural with
    | last hplain => exact ⟨rfl, rfl⟩
    | head | tail | cons => exact absurd rfl (hplain _ _)
  · rintro ⟨rfl, rfl⟩
    exact .last hplain

theorem deep_nil (hlists : HasLists E) : Deep (W := W) E .nil = Trace.pure () := by
  have hparts : E.parts .nil = [] := hlists.parts _
  rw [Deep, hparts, covers_nil]

theorem keeps_loop (hlists : HasLists E) (v : Value) : (Loop (W := W) E v).Keeps := by
  rw [loop_eq hlists]
  exact (keeps_drives _ _ _).andThen fun t => (keeps_resolves _ t).andThen fun _ => Trace.keeps_pure ()

theorem keeps_deep (v : Value) : (Deep (W := W) E v).Keeps :=
  (keeps_drives _ _ _).andThen fun _ => Trace.keeps_pure ()

theorem keeps_structural (v : Value) : (Structural (W := W) E v).Keeps := by
  intro s asks result r w hstructural hvalue
  induction hstructural with
  | last hplain => exact hvalue
  | head hstops => exact keeps_forcesDeep _ _ _ _ _ r w hstops hvalue
  | tail hfirst hstops =>
    exact keeps_forces _ _ _ _ _ r w hstops (keeps_forcesDeep _ _ _ _ _ r w hfirst hvalue)
  | cons hfirst hsecond hrest ih =>
    exact ih (keeps_forces _ _ _ _ _ r w hsecond (keeps_forcesDeep _ _ _ _ _ r w hfirst hvalue))

/-! ## Agreement -/

/-- a way to normalize lists that takes a `cons` apart into its head and its tail -/
structure Spinal (E : Engine Empty Code Value) (x : Value → Trace W Code Value α) : Prop where
  cons : ∀ head tail, x (.cons head tail) = (ForcesDeep E head).andThen fun _ => (Forces E tail).andThen x
  keeps : ∀ v, (x v).Keeps

theorem spinal_loop (hlists : HasLists E) : Spinal (W := W) E (Loop E) := ⟨loop_cons hlists, keeps_loop hlists⟩

theorem spinal_structural : Spinal (W := W) E (Structural E) := ⟨structural_cons, keeps_structural⟩

theorem spinal_deep (hlists : HasLists E) : Spinal (W := W) E (Deep E) := ⟨deep_cons hlists, keeps_deep⟩

theorem Spinal.seqPure {x : Value → Trace W Code Value α} (hspinal : Spinal E x) (b : β) :
    Spinal E fun v => (x v).andThen fun _ => Trace.pure b where
  cons head tail := by simp only [hspinal.cons, Trace.andThen_assoc]
  keeps v := (hspinal.keeps v).andThen fun _ => Trace.keeps_pure b

/-- Two ways agree on a list if they agree on what can be the end of it. Every `cons` takes requests, so there are fewer
of them left for the tail. -/
theorem Spinal.agree {x y : Value → Trace W Code Value α} (hleft : Spinal E x) (hright : Spinal E y) {v : Value}
    {s : Session W Code Value} {asks : List Ask} {result : EStateM.Result Stop (Session W Code Value) α}
    (hlast : ∀ w, OnSpine (Trace.sessionOf result).heap v w → (∀ head tail, w ≠ .cons head tail) → x w = y w) :
    x v s asks result ↔ y v s asks result := by
  induction hn : asks.length using Nat.strongRecOn generalizing v s asks with
  | ind n ih =>
    subst hn
    by_cases hshape : ∃ head tail, v = .cons head tail
    · obtain ⟨head, tail, rfl⟩ := hshape
      rw [hleft.cons, hright.cons]
      refine Trace.andThen_congr forcesDeep_requests fun _ s₁ _ asks₁ _ hfewer => ?_
      refine forces_andThen_congr hleft.keeps hright.keeps fun list s₂ asks₂ hfewer' hvalue => ?_
      exact ih asks₂.length (hfewer'.trans hfewer) (fun w hbelow => hlast w (.tail hvalue hbelow)) rfl
    · rw [hlast v (.here v) fun head tail hsame => hshape ⟨head, tail, hsame⟩]

theorem performs_normalizeList (hlists : HasLists E) (xs : Ref) :
    Performs (fun n => (normalizeList { E with fuel := n } xs : Host W Code Value Value)) (listAsks E xs) =
      (Forces E xs).andThen fun v => (Loop E v).andThen fun _ => Trace.pure v := by
  have hwhole := performs_bind (steady_drive (W := W) E (.demand xs) outcomeOf) fun v =>
    (steady_whnf E (.normalizeSpine v)).seqPure v
  simp only [performs_spine hlists] at hwhole
  simp only [loop_eq hlists, Trace.andThen_assoc, Trace.pure_andThen]
  exact hwhole

/-- **Normalizing lists.** The loop along the spine makes the same requests as the recursion over the structure of
lists, in the same order, and ends in the same way with the same cells and events, or neither of them comes to an end. If
nothing but lists stands along the spine in the end, the same goes for normalizing the list in a cell and forcing the
cell deeply. -/
theorem normalizeList_structural (hlists : HasLists E) (s : Session W Code Value) (asks : List Ask) :
    (∀ v result, Performs (fun n => do let _ ← Host.whnf { E with fuel := n } (.normalizeSpine v); return ())
        (whnfAsks E (.normalizeSpine v)) s asks result ↔ Structural E v s asks result) ∧
    ∀ xs result, (∀ v w, (Trace.sessionOf result).heap[xs]? = some (.value v) →
        OnSpine (Trace.sessionOf result).heap v w → w.kind = "list") →
      (Performs (fun n => normalizeList { E with fuel := n } xs) (listAsks E xs) s asks result ↔
        ForcesDeep E xs s asks result) := by
  refine ⟨fun v result => ?_, fun xs result hspine => ?_⟩
  · refine (spinal_loop hlists).agree spinal_structural fun w _ hplain => ?_
    exact (loop_last hlists hplain).trans (structural_last hplain).symm
  · rw [performs_normalizeList hlists, forcesDeep_covers]
    refine forces_andThen_congr (fun v => ((spinal_loop hlists).seqPure v).keeps v)
      (fun v => ((spinal_deep hlists).seqPure v).keeps v) ?_
    intro v s₁ asks₁ _ hvalue
    refine ((spinal_loop hlists).seqPure v).agree ((spinal_deep hlists).seqPure v) fun w hbelow hplain => ?_
    have hnil : w = .nil := by
      have hlist := hspine v w hvalue hbelow
      cases w with
      | nil => rfl
      | cons head tail => exact absurd rfl (hplain head tail)
      | _ => simp [Value.kind] at hlist
    subst hnil
    rw [loop_last hlists hplain, deep_nil hlists]

end

/-- the engine of the demonstration programs, where numbers and tails record that they run -/
def loud (fuel : Nat) : Engine Empty Code Value where
  body
    | .int n => do
      .record "number"
      (Code.int n).body
    | .tail xs => do
      .record "tail"
      (Code.tail xs).body
    | c => c.body
  parts := Value.parts
  fuel := fuel

/-- two elements that share the cell 1, and then a tail that is its own tail -/
def knot : Session Unit Code Value :=
  ⟨#[.value (.cons 1 2), .pending (.int 7), .value (.cons 1 3), .pending (.tail 2)], [], ()⟩

/-- the list of `knot` after it has been normalized -/
def knotted : Session Unit Code Value :=
  ⟨#[.value (.cons 1 2), .value (.int 7), .value (.cons 1 3), .failed .blackHole], ["tail", "number"], ()⟩

/-- The shared element is asked for twice, and runs and records its event once; the normalization ends with the error of
the tail. -/
theorem normalizeList_structural_knot :
    Structural (loud 0) (.cons 1 2) knot
        [⟨[], 1, true⟩, ⟨[], 2, false⟩, ⟨[], 1, false⟩, ⟨[], 3, true⟩, ⟨[3], 2, false⟩, ⟨[3], 3, false⟩]
        (.error (.failed .blackHole) knotted) ∧
      Performs (fun n => normalizeList (loud n) 0) (listAsks (loud 0) 0) knot
        [⟨[], 0, false⟩, ⟨[], 1, true⟩, ⟨[], 2, false⟩, ⟨[], 1, false⟩, ⟨[], 3, true⟩, ⟨[3], 2, false⟩,
          ⟨[3], 3, false⟩]
        (.error (.failed .blackHole) knotted) := by
  have hlists : HasLists (loud 0) := ⟨fun _ => rfl, fun _ => rfl⟩
  constructor
  · refine ((normalizeList_structural hlists knot _).1 _ _).1 ?_
    have hsteady := (steady_whnf (W := Unit) (loud 0) (.normalizeSpine (.cons 1 2))).seqPure ()
    exact hsteady.performs (n := 40) (s := knot) nofun
  · refine ((normalizeList_structural hlists knot _).2 0 _ fun v w hvalue hbelow => ?_).2 ?_
    · cases hvalue
      cases hbelow with
      | here => rfl
      | tail hvalue hbelow =>
        cases hvalue
        cases hbelow with
        | here => rfl
        | tail hvalue hbelow => cases hvalue
    · exact Steady.performs (steady_forceDeep (W := Unit) (E := loud 0) (r := 0)) (n := 40) (s := knot) nofun

end ByNeed.Demo
