/-
Accessors of products.

An accessor cell is bound to the cell of a constructor. It is a projection: it forces the constructor, and goes on with
the cell of its field. So it fails as the constructor fails, or it comes to the very outcome of the field, and it leaves
the other fields alone (`accessors_follow`). The exception is an accessor that the code of its own constructor or of its
own field asks for: it is a black hole, whatever the constructor comes to (`entangled_accessor_differs`). An accessor
that nothing mentions is only ever asked for from outside (`Unshared.outside`).
-/
import ByNeed.Proofs.Projection
import ByNeed.Proofs.Scoping

namespace ByNeed

/-! ## Accessors are projections -/

/-- field `i` of a product of `n` fields -/
def Value.fieldAt (n i : Nat) (v : Value) : Outcome Ref :=
  match v with
  | .data d =>
    if d.fields.length = n then
      match d.fields[i]? with
      | some f => .ok f
      | none => .error (.shape (productKind n) v.kind)
    else .error (.shape (productKind n) v.kind)
  | v => .error (.shape (productKind n) v.kind)

theorem Value.fieldAt_data {n i : Nat} {d : Data} {f : Ref} (harity : d.fields.length = n)
    (hposition : d.fields[i]? = some f) : (Value.data d).fieldAt n i = .ok f := by
  simp [fieldAt, harity, hposition]

theorem Value.fieldAt_eq_ok {n i : Nat} {v : Value} {f : Ref} (hfound : v.fieldAt n i = .ok f) :
    ∃ d, v = .data d ∧ d.fields.length = n ∧ d.fields[i]? = some f := by
  cases v with
  | data d =>
    unfold fieldAt at hfound
    dsimp only at hfound
    split_ifs at hfound with harity
    split at hfound
    · rename_i hposition
      cases hfound
      exact ⟨d, rfl, harity, hposition⟩
    · cases hfound
  | _ => cases hfound

theorem Expr.needField_eq (n i : Nat) (v : Value) : needField n i v = .ofOutcome (v.fieldAt n i) := by
  cases v with
  | data d =>
    unfold needField Value.fieldAt
    dsimp only
    split_ifs
    · cases d.fields[i]? <;> rfl
    · rfl
  | _ => rfl

theorem accessor_body (S : Scope) (fuel n i : Nat) (r : Ref) :
    (S.engine fuel).body (.enter (.accessor n i) [r]) = .force r (.pass (Value.fieldAt n i)) := by
  change Comp.bind (.demand r) (fun v => (Expr.needField n i v).bind fun f => .done (Next.cell f)) = _
  simp only [Comp.demand, Comp.bind, Comp.force.injEq, true_and]
  funext o
  cases o with
  | error e => rfl
  | ok v =>
    change (Expr.needField n i v).bind (fun f => .done (Next.cell f)) = _
    rw [Expr.needField_eq]
    cases hfound : v.fieldAt n i <;> simp only [Comp.pass, hfound] <;> rfl

theorem accessor_projection (S : Scope) (H : Hiding) (fuel n i : Nat) (r : Ref) :
    Projection (S.engine fuel) (S.sight H) (.enter (.accessor n i) [r]) r (Value.fieldAt n i) := by
  refine ⟨accessor_body S fuel n i r, List.mem_cons_self, fun v f hfound => ?_⟩
  obtain ⟨d, rfl, -, hposition⟩ := Value.fieldAt_eq_ok hfound
  exact List.mem_of_getElem? hposition

/-- an accessor ends on every answer -/
theorem accessor_procedure (S : Scope) (fuel n i : Nat) (r : Ref) :
    Procedure (S.engine fuel) ((S.engine fuel).body (.enter (.accessor n i) [r])) := by
  rw [accessor_body]
  refine .force fun o => ?_
  cases o with
  | error e => exact .fail e
  | ok v =>
    cases hfound : v.fieldAt n i with
    | error e =>
      simp only [Comp.pass, hfound]
      exact .fail e
    | ok f =>
      simp only [Comp.pass, hfound]
      exact .cell f

/-! ## Fields of dynamic values -/

/-- a payload of the type, sealed or not, gives the cell of its field; nothing is asked for -/
theorem dynamicField_of_type {d : Data} {i : Nat} {f : Ref} (hposition : d.fields[i]? = some f) :
    Expr.dynamicField d.type i (.data d.type (.data d)) = .done f ∧
      Expr.dynamicField d.type i (.sealed d.type (.data d)) = .done f := by
  have hfield : (Value.data d).fields[i]? = some f := hposition
  simp [Expr.dynamicField, Dynamic.expect, Dynamic.payload?, Comp.ofOutcome, bind, Comp.bind, hfield, pure]

/-- anything else is a type error, also a payload of another type with such a field -/
theorem dynamicField_of_other {type : TypeId} {d : Dynamic Value} (i : Nat) (hdata : ∀ v, d ≠ .data type v)
    (hsealed : ∀ v, d ≠ .sealed type v) :
    Expr.dynamicField type i d = .fail (.shape type.name d.typeName) := by
  have hnone : d.payload? type = none := by
    cases d with
    | int n => rfl
    | bool b => rfl
    | data own payload =>
      have hother : own ≠ type := fun hsame => hdata payload (by rw [hsame])
      simp [Dynamic.payload?, hother]
    | sealed own payload =>
      have hother : own ≠ type := fun hsame => hsealed payload (by rw [hsame])
      simp [Dynamic.payload?, hother]
  simp [Expr.dynamicField, Dynamic.expect, hnone, Comp.ofOutcome, bind, Comp.bind]

/-! ## Accessors over a series of forces -/

/-- every address that code or a value in a cell mentions, or a name that stands for it, is that of a cell -/
structure Scope.Closed (S : Scope) (h : Heap Unit Code Value) : Prop where
  code : ∀ (r : Ref) c, h[r]? = some (.pending c) → ∀ q ∈ c.mentions S, q < h.size
  values : ∀ (r : Ref) v, h[r]? = some (.value v) → ∀ q ∈ v.mentions S, q < h.size

/-- only the host has the `hidden` cells: no code and no value in a cell mentions one -/
structure Unshared (S : Scope) (h : Heap Unit Code Value) (hidden : Ref → Prop) : Prop where
  code : ∀ (r : Ref) c, h[r]? = some (.pending c) → ∀ q ∈ c.mentions S, ¬ hidden q
  values : ∀ (r : Ref) v, h[r]? = some (.value v) → ∀ q ∈ v.mentions S, ¬ hidden q

/-- what the accessor `a` of field `i` has come to: the failure of the constructor in `r`, or the outcome of the field -/
inductive Accessed (h : Heap Unit Code Value) (r : Ref) (i : Nat) (a : Ref) : Outcome Value → Prop where
  | failed {e : EvalError} (hconstructor : h[r]? = some (.failed e)) (hown : h[a]? = some (.failed e)) :
      Accessed h r i a (.error e)
  | field {d : Data} {f : Ref} {o : Outcome Value} (hconstructor : h[r]? = some (.value (.data d)))
      (hposition : d.fields[i]? = some f) (hown : h[a]? = some (.ofOutcome o)) (hshared : h[f]? = some (.ofOutcome o)) :
      Accessed h r i a o

/-- the constructor in `r` or its field `i` was at work when the request was made -/
def Entangled (h : Heap Unit Code Value) (r : Ref) (i : Nat) (ask : Ask) : Prop :=
  r ∈ ask.busy ∨ ∃ d f, h[r]? = some (.value (.data d)) ∧ d.fields[i]? = some f ∧ f ∈ ask.busy

section

variable {h : Heap Unit Code Value} {hidden : Ref → Prop} {a r : Ref} {n i : Nat} {o : Outcome Value}

/-- for a product with that field, nothing else can come out -/
theorem Reports.accessed (hinside : i < n)
    (hproduct : ∀ v, h[r]? = some (.value v) → ∃ d, v = .data d ∧ d.fields.length = n)
    (hreports : Reports h a r (Value.fieldAt n i) o) : Accessed h r i a o := by
  cases hreports with
  | failed hwhole hown => exact .failed hwhole hown
  | refused hwhole hnone hown =>
    obtain ⟨d, rfl, harity⟩ := hproduct _ hwhole
    obtain ⟨f, hposition⟩ : ∃ f, d.fields[i]? = some f := ⟨_, List.getElem?_eq_getElem (harity ▸ hinside)⟩
    rw [Value.fieldAt_data harity hposition] at hnone
    cases hnone
  | leads hwhole hpart hown hshared =>
    obtain ⟨d, rfl, -, hposition⟩ := Value.fieldAt_eq_ok hpart
    exact .field hwhole hposition hown hshared

/-- a request is entangled if it is made while something that the accessor asks for is at work -/
theorem entangled_iff (hproduct : ∀ v, h[r]? = some (.value v) → ∃ d, v = .data d ∧ d.fields.length = n) (ask : Ask) :
    Entangled h r i ask ↔ ∃ q, Sought h r (Value.fieldAt n i) q ∧ q ∈ ask.busy := by
  constructor
  · rintro (hmem | ⟨d, f, hvalue, hposition, hmem⟩)
    · exact ⟨r, .inl rfl, hmem⟩
    · obtain ⟨_, hsame, harity⟩ := hproduct _ hvalue
      cases hsame
      exact ⟨f, .inr ⟨_, hvalue, Value.fieldAt_data harity hposition⟩, hmem⟩
  · rintro ⟨q, rfl | ⟨v, hvalue, hpart⟩, hmem⟩
    · exact .inl hmem
    · obtain ⟨d, rfl, -, hposition⟩ := Value.fieldAt_eq_ok hpart
      exact .inr ⟨d, q, hvalue, hposition, hmem⟩

theorem Scope.Closed.openHeap {S : Scope} (hclosed : S.Closed h) (hunshared : Unshared S h hidden)
    (hcells : ∀ q, hidden q → q < h.size) : (S.sight ⟨h.size, hidden, hcells⟩).OpenHeap h := by
  refine ⟨fun q x hx => ?_, le_rfl⟩
  cases x with
  | pending c => exact fun p hp => ⟨hclosed.code q c hx p hp, hunshared.code q c hx p hp⟩
  | value v => exact fun p hp => ⟨hclosed.values q v hx p hp, hunshared.values q v hx p hp⟩
  | busy => exact Sight.open_nil
  | failed e => exact Sight.open_nil

end

variable {S : Scope} {W : Type} {s s' : Session W Code Value} {n : Nat} {r : Ref} {field : Ref → Option Nat}
  {answers : List (Ref × Option (Outcome Value))} {asks : List Ask} {fuel : Nat}

/-- Cells that only the host has are asked for from outside or not at all. -/
theorem Unshared.outside {hidden : Ref → Prop} (hcells : ∀ q, hidden q → q < s.heap.size) (hclosed : S.Closed s.heap)
    (hunshared : Unshared S s.heap hidden) (hseries : Host.Series (S.engine fuel) s answers asks s') :
    ∀ ask ∈ asks, hidden ask.cell → ask.busy = [] := by
  have hrespected := Expr.respected S ⟨s.heap.size, hidden, hcells⟩ fuel
  have hall := Host.Series.induction (motive := fun _ asks h _ =>
    (S.sight ⟨s.heap.size, hidden, hcells⟩).OpenHeap h ∧ ∀ ask ∈ asks, hidden ask.cell → ask.busy = [])
    ⟨hclosed.openHeap hunshared hcells, List.forall_mem_nil _⟩ ?_ hseries
  · exact hall.2
  rintro answers asks h events q n asks' m x ⟨hheap, hbefore⟩ hrun -
  obtain ⟨k, starts, later, rfl, hrest⟩ := hrun.demand_step
  obtain ⟨hheap', hfree⟩ := hheap.halts hrespected hrest
  refine ⟨hheap', List.forall_mem_append.2 ⟨hbefore, List.forall_mem_cons.2 ⟨fun _ => rfl, ?_⟩⟩⟩
  exact fun ask hmem hhidden => absurd hhidden (hfree ask hmem)

/-- the fate of an accessor over a series of forces -/
theorem accessor_fate {a : Ref} {i : Nat} (hcalm : s.heap.Calm) (hclosed : S.Closed s.heap)
    (hcode : s.heap[a]? = some (.pending (.enter (.accessor n i) [r])))
    (hseries : Host.Series (S.engine fuel) s answers asks s') :
    Fate s'.heap a (.enter (.accessor n i) [r]) r (Value.fieldAt n i) asks ∧
      ∀ ask ∈ asks, ask.asker = some a → Sought s'.heap r (Value.fieldAt n i) ask.cell := by
  have hunshared : Unshared S s.heap fun _ => False := ⟨fun _ _ _ _ _ => id, fun _ _ _ _ _ => id⟩
  exact series_projection (Expr.respected S _ fuel) (accessor_projection S _ fuel n i r) hcalm
    (hclosed.openHeap hunshared fun _ => False.elim) hcode hseries

/-- **Accessors follow their constructor and their field.** Let `field` be the accessors of a constructor in `r`, which
is ready, delayed or failed, with fields in any state. Cells are forced from outside in any order and any number of times,
accessors and others.
- Whatever the force of an accessor gives, the accessor then holds it. It is the failure of the constructor, or the
  outcome that the field holds, too, unless the accessor was first asked for while the constructor or the field was at
  work: then it is a black hole. If the force was cut off, it is the poison of the cells that were at work.
- No cell, be it the constructor or a field, is run twice in the whole sequence.
- What the code of an accessor asks for is its constructor and its own field.
- If all cells have code that ends on all answers, all forces end.
To find a field of a dynamic value, no cell is asked for: the field's own cell comes out if the payload, sealed or not,
has the type of the constructor, and a type error if it has another type or if there is none. -/
theorem accessors_follow (hcalm : s.heap.Calm) (hclosed : S.Closed s.heap)
    (hbound : ∀ a i, field a = some i → i < n ∧ s.heap[a]? = some (.pending (.enter (.accessor n i) [r]))) :
    (∀ fuel answers asks s', Host.Series (S.engine fuel) s answers asks s' →
      ((∀ v, s'.heap[r]? = some (.value v) → ∃ d, v = .data d ∧ d.fields.length = n) →
        ∀ a i x, field a = some i → (a, x) ∈ answers →
          ∃ o, s'.heap[a]? = some (.ofOutcome o) ∧ (x = some o ∨ x = none ∧ o = .error .poisoned) ∧
            ∃ ask ∈ asks, ask.cell = a ∧ ask.starts = true ∧
              (¬ Entangled s'.heap r i ask → Accessed s'.heap r i a o) ∧
              (Entangled s'.heap r i ask → o = .error .blackHole)) ∧
      (Ask.started asks).Nodup ∧
      ∀ ask ∈ asks, ∀ a i, ask.asker = some a → field a = some i → ask.cell = r ∨
        ∃ d, s'.heap[r]? = some (.value (.data d)) ∧ d.fields[i]? = some ask.cell) ∧
    (s.heap.Procedures (S.engine 0) → ∀ qs, ∃ answers asks s' steps, answers.map Prod.fst = qs ∧
      ∀ fuel ≥ steps, Host.Series (S.engine fuel) s answers asks s') ∧
    ∀ i, (∀ (d : Data) f, d.fields[i]? = some f →
        Expr.dynamicField d.type i (.data d.type (.data d)) = .done f ∧
        Expr.dynamicField d.type i (.sealed d.type (.data d)) = .done f) ∧
      ∀ type d, (∀ v, d ≠ .data type v) → (∀ v, d ≠ .sealed type v) →
        Expr.dynamicField type i d = .fail (.shape type.name d.typeName) := by
  refine ⟨fun fuel answers asks s' hseries => ?_, fun hprocedures qs => ?_, fun i =>
    ⟨fun d f hposition => dynamicField_of_type hposition, fun type d => dynamicField_of_other i⟩⟩
  · refine ⟨fun hproduct a i x hi hmem => ?_, hseries.once, fun ask hmem a i hasker hi => ?_⟩
    · obtain ⟨hinside, hcode⟩ := hbound a i hi
      obtain ⟨-, hanswers⟩ := hseries.answered hcalm
      obtain ⟨o, hstored, hagrees⟩ := hanswers a x hmem (Array.getElem?_eq_some_iff.1 hcode).1
      refine ⟨o, hstored, hagrees, ?_⟩
      cases (accessor_fate hcalm hclosed hcode hseries).1 with
      | untouched hcode' hnever =>
        rw [hcode'] at hstored
        cases o <;> cases hstored
      | @settled ask o' hask hcell hstarts hsettled =>
        have hsame : o' = o := by
          rw [← Heap.outcome?_eq_some] at hstored
          have hown := Heap.outcome?_eq_some.2 hsettled.own
          exact Option.some.inj (hown.symm.trans hstored)
        subst hsame
        refine ⟨ask, hask, hcell, hstarts, ?_⟩
        rw [entangled_iff hproduct]
        cases hsettled with
        | follows hfree hreports =>
          exact ⟨fun _ => hreports.accessed hinside hproduct, fun ⟨q, hsought, hbusy⟩ => absurd hbusy (hfree q hsought)⟩
        | hole hsought hbusy hown => exact ⟨fun hfree => absurd ⟨_, hsought, hbusy⟩ hfree, fun _ => rfl⟩
    · rcases (accessor_fate hcalm hclosed (hbound a i hi).2 hseries).2 ask hmem hasker with hwhole | ⟨v, hwhole, hpart⟩
      · exact .inl hwhole
      · obtain ⟨d, rfl, -, hposition⟩ := Value.fieldAt_eq_ok hpart
        exact .inr ⟨d, hwhole, hposition⟩
  · obtain ⟨answers, asks, s', steps, hcells, -, hseries⟩ := Host.series_end hprocedures qs
    exact ⟨answers, asks, s', steps, hcells, hseries⟩

/-- the cells 0 to 2 by their names, and the last accessor, which has a name that nothing uses -/
def drawers : Scope where
  global x := [("x", ⟨0, true⟩), ("y", ⟨1, true⟩), ("z", ⟨2, true⟩), ("third", ⟨6, false⟩)].lookup x
  valueType := ⟨0, "value"⟩

/-- a delayed product with a delayed field, a failed one and one that nobody asks for, and its three accessors -/
def chest : Session Unit Code Value where
  heap := #[.pending (.eval (.tick "x" (.int 7)) []), .failed (.user "stuck"), .pending (.eval (.tick "z" (.int 9)) []),
    .pending (.eval (.tick "chest" (.con ⟨1, "Chest"⟩ 1 [.var "x", .var "y", .var "z"])) []),
    .pending (.enter (.accessor 3 0) [3]), .pending (.enter (.accessor 3 1) [3]), .pending (.enter (.accessor 3 2) [3])]
  events := []
  world := ()

/-- the field of each accessor of the chest -/
def chestField : Ref → Option Nat
  | 4 => some 0
  | 5 => some 1
  | 6 => some 2
  | _ => none

/-- the code of the chest's cells -/
theorem chest_code {q : Ref} {c : Code} (hcode : chest.heap[q]? = some (.pending c)) :
    c = .eval (.tick "x" (.int 7)) [] ∨ c = .eval (.tick "z" (.int 9)) [] ∨
      c = .eval (.tick "chest" (.con ⟨1, "Chest"⟩ 1 [.var "x", .var "y", .var "z"])) [] ∨
      ∃ i, c = .enter (.accessor 3 i) [3] := by
  have hmem := Array.mem_of_getElem? hcode
  simp only [chest, List.mem_toArray, List.mem_cons, Cell.pending.injEq, reduceCtorEq, List.not_mem_nil, or_false,
    false_or] at hmem
  rcases hmem with h | h | h | h | h | h
  · exact .inl h
  · exact .inr (.inl h)
  · exact .inr (.inr (.inl h))
  · exact .inr (.inr (.inr ⟨0, h⟩))
  · exact .inr (.inr (.inr ⟨1, h⟩))
  · exact .inr (.inr (.inr ⟨2, h⟩))

theorem chest_calm : chest.heap.Calm := by
  intro q hbusy
  have hmem := Array.mem_of_getElem? hbusy
  simp [chest] at hmem

theorem chest_closed : drawers.Closed chest.heap := by
  refine ⟨fun q c hcode => ?_, fun q v hvalue => ?_⟩
  · rcases chest_code hcode with rfl | rfl | rfl | ⟨i, rfl⟩
    · decide
    · decide
    · decide
    · simp [Code.mentions, FnCode.mentions, chest]
  · have hmem := Array.mem_of_getElem? hvalue
    simp [chest] at hmem

theorem chest_accessors (a : Ref) (i : Nat) (hi : chestField a = some i) :
    i < 3 ∧ chest.heap[a]? = some (.pending (.enter (.accessor 3 i) [3])) := by
  unfold chestField at hi
  split at hi <;> cases hi
  · exact ⟨by decide, rfl⟩
  · exact ⟨by decide, rfl⟩
  · exact ⟨by decide, rfl⟩

/-- The accessors of the failed and of the delayed field are forced, the first one twice. The product and the delayed
field are run once, and the third field keeps its code. A crate has as many fields as a chest, and is no chest. -/
theorem accessors_follow_chest :
    (∃ asks s', Host.Series (drawers.engine 40) chest
        [(5, some (.error (.user "stuck"))), (4, some (.ok (.int 7))), (5, some (.error (.user "stuck")))] asks s' ∧
      Accessed s'.heap 3 1 5 (.error (.user "stuck")) ∧ Accessed s'.heap 3 0 4 (.ok (.int 7)) ∧
      s'.heap[2]? = chest.heap[2]? ∧ (Ask.started asks).Nodup ∧
      ⟨[4], 0, true⟩ ∈ asks ∧ ∃ d, s'.heap[3]? = some (.value (.data d)) ∧ d.fields[0]? = some 0) ∧
    (∃ answers asks s' steps, answers.map Prod.fst = [6, 6, 3] ∧
      ∀ fuel ≥ steps, Host.Series (drawers.engine fuel) chest answers asks s') ∧
    Expr.dynamicField ⟨1, "Chest"⟩ 2 (.sealed ⟨1, "Chest"⟩ (.data ⟨⟨1, "Chest"⟩, 1, [0, 1, 2]⟩)) = .done 2 ∧
    Expr.dynamicField ⟨1, "Chest"⟩ 2 (.data ⟨2, "Crate"⟩ (.data ⟨⟨2, "Crate"⟩, 1, [0, 1, 2]⟩)) =
      .fail (.shape "Chest" "Crate") ∧
    Expr.dynamicField ⟨1, "Chest"⟩ 2 (.bool true) = .fail (.shape "Chest" "Bool") := by
  obtain ⟨hseries, hends, hdynamic⟩ := accessors_follow (n := 3) chest_calm chest_closed chest_accessors
  refine ⟨?_, hends ?_ [6, 6, 3], ?_⟩
  · obtain ⟨s₁, s₂, s', hone, htwo, hthree, hproduct, hthird, hasked, houtside⟩ : ∃ s₁ s₂ s',
        Host.outcome (drawers.engine 40) 5 chest = .ok (.error (.user "stuck")) s₁ ∧
        Host.outcome (drawers.engine 40) 4 s₁ = .ok (.ok (.int 7)) s₂ ∧
        Host.outcome (drawers.engine 40) 5 s₂ = .ok (.error (.user "stuck")) s' ∧
        s'.heap[3]? = some (.value (.data ⟨⟨1, "Chest"⟩, 1, [0, 1, 2]⟩)) ∧ s'.heap[2]? = chest.heap[2]? ∧
        (⟨[4], 0, true⟩ : Ask) ∈ Machine.asks (drawers.engine 40) 40 ⟨s₁.heap, s₁.events, .demand 4, []⟩ ∧
        ∀ ask ∈ Machine.asks (drawers.engine 40) 40 ⟨chest.heap, chest.events, .demand 5, []⟩ ++
            Machine.asks (drawers.engine 40) 40 ⟨s₁.heap, s₁.events, .demand 4, []⟩ ++
            Machine.asks (drawers.engine 40) 40 ⟨s₂.heap, s₂.events, .demand 5, []⟩,
          ask.cell = 4 ∨ ask.cell = 5 → ask.busy = [] :=
      ⟨_, _, _, rfl, rfl, rfl, rfl, rfl, by decide, by decide⟩
    obtain ⟨asks, hrun, hrequested, houtside⟩ : ∃ asks, Host.Series (drawers.engine 40) chest
        [(5, some (.error (.user "stuck"))), (4, some (.ok (.int 7))), (5, some (.error (.user "stuck")))] asks s' ∧
        (⟨[4], 0, true⟩ : Ask) ∈ asks ∧ ∀ ask ∈ asks, ask.cell = 4 ∨ ask.cell = 5 → ask.busy = [] :=
      ⟨_, ((Host.Series.none.gave hone).gave htwo).gave hthree,
        List.mem_append_left _ (List.mem_append_right _ hasked), houtside⟩
    obtain ⟨hfollow, honce, hown⟩ := hseries 40 _ _ _ hrun
    have hresults := hfollow fun v hvalue => by
      rw [hproduct] at hvalue
      cases hvalue
      exact ⟨_, rfl, rfl⟩
    have hfree : ∀ i, ∀ ask ∈ asks, ask.cell = 4 ∨ ask.cell = 5 → ¬ Entangled s'.heap 3 i ask := by
      intro i ask hmem hcell
      simp [Entangled, houtside ask hmem hcell]
    have hsecond : Accessed s'.heap 3 1 5 (.error (.user "stuck")) := by
      obtain ⟨o, -, hsame | ⟨hcut, -⟩, ask, hmem, hcell, -, haccessed, -⟩ := hresults 5 1 _ rfl List.mem_cons_self
      · cases hsame
        exact haccessed (hfree 1 ask hmem (.inr hcell))
      · cases hcut
    have hfirst : Accessed s'.heap 3 0 4 (.ok (.int 7)) := by
      obtain ⟨o, -, hsame | ⟨hcut, -⟩, ask, hmem, hcell, -, haccessed, -⟩ :=
        hresults 4 0 _ rfl (List.mem_cons_of_mem _ List.mem_cons_self)
      · cases hsame
        exact haccessed (hfree 0 ask hmem (.inl hcell))
      · cases hcut
    exact ⟨asks, s', hrun, hsecond, hfirst, hthird, honce, hrequested,
      (hown _ hrequested 4 0 rfl rfl).resolve_left (by decide)⟩
  · intro q c hcode
    rcases chest_code hcode with rfl | rfl | rfl | ⟨i, rfl⟩
    · exact .emit (.code (.value _))
    · exact .emit (.code (.value _))
    · exact .emit (.code (.value _))
    · exact accessor_procedure drawers 0 3 i 3
  · obtain ⟨hfound, hother⟩ := hdynamic 2
    exact ⟨(hfound ⟨⟨1, "Chest"⟩, 1, [0, 1, 2]⟩ 2 rfl).2, hother _ _ (by simp) (by simp),
      hother _ _ (by simp) (by simp)⟩

/-- A product of one field that asks for one of its two accessors before it comes to a value. -/
def tangle : Session Unit Code Value where
  heap := #[.value (.int 7), .pending (.eval (.recover (.var "first") (.con ⟨1, "Box"⟩ 0 [.var "x"])) []),
    .pending (.enter (.accessor 1 0) [1]), .pending (.enter (.accessor 1 0) [1])]
  events := []
  world := ()

def tangled : Scope := ⟨fun x => [("x", ⟨0, true⟩), ("first", ⟨2, true⟩)].lookup x, ⟨0, "value"⟩⟩

/-- **Two accessors of one field that differ.** Only the accessors are forced. The one that the product has asked for in
vain is a black hole, although the product has come to a value, with the field that the other one gives. -/
theorem entangled_accessor_differs : ∃ asks s', Host.Series (tangled.engine 40) tangle
    [(3, some (.ok (.int 7))), (2, some (.error .blackHole))] asks s' ∧
    s'.heap[1]? = some (.value (.data ⟨⟨1, "Box"⟩, 0, [0]⟩)) ∧ s'.heap[0]? = some (.value (.int 7)) ∧
    Accessed s'.heap 1 0 3 (.ok (.int 7)) ∧ ∀ o, ¬ Accessed s'.heap 1 0 2 o := by
  obtain ⟨s₁, s', hone, htwo, hproduct, hfield, hfirst, hsecond⟩ : ∃ s₁ s',
      Host.outcome (tangled.engine 40) 3 tangle = .ok (.ok (.int 7)) s₁ ∧
      Host.outcome (tangled.engine 40) 2 s₁ = .ok (.error .blackHole) s' ∧
      s'.heap[1]? = some (.value (.data ⟨⟨1, "Box"⟩, 0, [0]⟩)) ∧ s'.heap[0]? = some (.value (.int 7)) ∧
      s'.heap[2]? = some (.failed .blackHole) ∧ s'.heap[3]? = some (.value (.int 7)) :=
    ⟨_, _, rfl, rfl, rfl, rfl, rfl, rfl⟩
  refine ⟨_, s', (Host.Series.none.gave hone).gave htwo, hproduct, hfield, ?_, fun o haccessed => ?_⟩
  · exact .field (o := .ok (.int 7)) hproduct rfl hsecond hfield
  · cases haccessed with
    | failed hconstructor hown =>
      rw [hproduct] at hconstructor
      cases hconstructor
    | field hconstructor hposition hown hshared =>
      rw [hproduct] at hconstructor
      cases hconstructor
      cases hposition
      rw [hfirst] at hown
      rw [hfield] at hshared
      cases o with
      | error e => cases hshared
      | ok v => cases hown

end ByNeed
