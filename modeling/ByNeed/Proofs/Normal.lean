/-
Normalizing values, type by type.

Every type has its own way of normalizing its values: scalars are left alone, containers and products normalize what
stands in them from left to right, and a cell is forced and normalized by what it holds.
- `Normal`: one rule for each case of each type.
- `normal_iff_covers`: together they go over the cells of a value, as the evaluator does.
-/
import ByNeed.Proofs.Traces
import ByNeed.Expr.Eval

namespace ByNeed

open Host

variable {W : Type}

/-! ## The structure of values -/

namespace Value

/-- values that hold nothing -/
def isScalar : Value → Bool
  | unit | int _ | bool _ | str _ | fn _ => true
  | _ => false

/-- the values that stand directly in a value, from left to right; a cell is a value of its own -/
def children : Value → List Value
  | data d => d.fields.map lazy
  | vector items => items
  | opt item => item.toList
  | box v => [v]
  | dyn (.data _ payload) => [payload]
  | unit | int _ | bool _ | str _ | fn _ | lazy _ | dyn (.int _) | dyn (.bool _) | dyn (.sealed _ _) => []

/-- what stands in a value is smaller, or a cell -/
theorem child_lt {v w : Value} (hw : w ∈ v.children) : (∃ r, w = lazy r) ∨ sizeOf w < sizeOf v := by
  cases v with
  | data d =>
    obtain ⟨r, -, rfl⟩ := List.mem_map.1 hw
    exact .inl ⟨r, rfl⟩
  | vector items =>
    have hlt : sizeOf w < sizeOf items := List.sizeOf_lt_of_mem hw
    exact .inr (hlt.trans (by simp))
  | opt item =>
    obtain rfl : item = some w := Option.mem_toList.1 hw
    exact .inr (by simp +arith)
  | box v =>
    obtain rfl := List.mem_singleton.1 hw
    exact .inr (by simp)
  | dyn d =>
    cases d with
    | data type payload =>
      obtain rfl := List.mem_singleton.1 hw
      exact .inr (by simp +arith)
    | int | bool | sealed => cases hw
  | unit | int | bool | str | fn | lazy => cases hw

/-- what holds of a value if it holds of all that stands in it holds of every value -/
theorem induction {motive : Value → Prop} (node : ∀ v : Value, (∀ w ∈ v.children, motive w) → motive v) (v : Value) :
    motive v := by
  refine node v fun w hw => ?_
  rcases child_lt hw with ⟨r, rfl⟩ | hlt
  · exact node (lazy r) (List.forall_mem_nil _)
  · exact induction node w
termination_by sizeOf v

theorem partsAll_eq (vs : List Value) : partsAll vs = vs.flatMap parts := by
  induction vs with
  | nil => rfl
  | cons v vs ih => rw [partsAll, ih, List.flatMap_cons]

/-- the cells of a value are those of what stands in it, one after the other -/
theorem parts_eq {v : Value} (hcell : ∀ r, v ≠ lazy r) : v.parts = v.children.flatMap parts := by
  cases v with
  | data d =>
    rw [parts, children, List.flatMap_map]
    exact (List.flatMap_singleton' d.fields).symm
  | vector items => rw [parts, partsAll_eq, children]
  | opt item => cases item <;> simp [parts, children]
  | box v => simp [parts, children]
  | lazy r => exact absurd rfl (hcell r)
  | dyn d => cases d <;> simp [parts, children]
  | unit | int | bool | str | fn => simp [parts, children]

end Value

/-! ## Normalizing, type by type -/

/-- normalizing a value, by the type that it has -/
inductive Normal (E : Engine Empty Code Value) : Value → Trace W Code Value Unit where
  | scalar {v : Value} {s : Session W Code Value} (hscalar : v.isScalar = true) : Normal E v s [] (.ok () s)
  | none {s : Session W Code Value} : Normal E (.opt none) s [] (.ok () s)
  | some {v : Value} {s : Session W Code Value} {asks : List Ask}
      {result : EStateM.Result Stop (Session W Code Value) Unit} (hitem : Normal E v s asks result) :
      Normal E (.opt (some v)) s asks result
  | empty {s : Session W Code Value} : Normal E (.vector []) s [] (.ok () s)
  /-- the first item that stops is the end -/
  | stops {v : Value} {vs : List Value} {s s' : Session W Code Value} {asks : List Ask} {stop : Stop}
      (hitem : Normal E v s asks (.error stop s')) : Normal E (.vector (v :: vs)) s asks (.error stop s')
  | item {v : Value} {vs : List Value} {s s₁ : Session W Code Value} {asks₁ asks₂ : List Ask}
      {result : EStateM.Result Stop (Session W Code Value) Unit} (hitem : Normal E v s asks₁ (.ok () s₁))
      (hrest : Normal E (.vector vs) s₁ asks₂ result) : Normal E (.vector (v :: vs)) s (asks₁ ++ asks₂) result
  | box {v : Value} {s : Session W Code Value} {asks : List Ask}
      {result : EStateM.Result Stop (Session W Code Value) Unit} (hitem : Normal E v s asks result) :
      Normal E (.box v) s asks result
  /-- the fields of a product one after the other -/
  | product {d : Data} {s : Session W Code Value} {asks : List Ask}
      {result : EStateM.Result Stop (Session W Code Value) Unit}
      (hfields : Normal E (.vector (d.fields.map .lazy)) s asks result) : Normal E (.data d) s asks result
  /-- a cell is forced -/
  | fails {r : Ref} {s s' : Session W Code Value} {asks : List Ask} {stop : Stop}
      (hforced : Forces E r s asks (.error stop s')) : Normal E (.lazy r) s asks (.error stop s')
  | forced {r : Ref} {v : Value} {s s₁ : Session W Code Value} {asks₁ asks₂ : List Ask}
      {result : EStateM.Result Stop (Session W Code Value) Unit} (hforced : Forces E r s asks₁ (.ok v s₁))
      (hvalue : Normal E v s₁ asks₂ result) : Normal E (.lazy r) s (asks₁ ++ asks₂) result
  | data {type : TypeId} {v : Value} {s : Session W Code Value} {asks : List Ask}
      {result : EStateM.Result Stop (Session W Code Value) Unit} (hpayload : Normal E v s asks result) :
      Normal E (.dyn (.data type v)) s asks result
  /-- integers, truth values and what is sealed are left alone -/
  | other {d : Dynamic Value} {s : Session W Code Value} (hdata : ∀ type v, d ≠ .data type v) :
      Normal E (.dyn d) s [] (.ok () s)

section

variable {E : Engine Empty Code Value} {v : Value}

theorem normal_vector_cons (vs : List Value) : Normal (W := W) E (.vector (v :: vs)) =
    (Normal E v).andThen fun _ => Normal E (.vector vs) := by
  funext s asks result
  refine propext ⟨fun hnormal => ?_, ?_⟩
  · cases hnormal with
    | scalar hscalar => cases hscalar
    | stops hitem => exact .inr ⟨_, _, hitem, rfl⟩
    | item hitem hrest => exact .inl ⟨(), _, _, _, hitem, hrest, rfl⟩
  · rintro (⟨_, s₁, asks₁, asks₂, hitem, hrest, rfl⟩ | ⟨stop, s', hitem, rfl⟩)
    · exact .item hitem hrest
    · exact .stops hitem

theorem normal_empty : Normal (W := W) E (.vector []) = Trace.pure () := by
  funext s asks result
  refine propext ⟨fun hnormal => ?_, ?_⟩
  · cases hnormal with
    | scalar hscalar => cases hscalar
    | empty => exact ⟨rfl, rfl⟩
  · rintro ⟨rfl, rfl⟩
    exact .empty

theorem normal_lazy (r : Ref) : Normal (W := W) E (.lazy r) = (Forces E r).andThen (Normal E) := by
  funext s asks result
  refine propext ⟨fun hnormal => ?_, ?_⟩
  · cases hnormal with
    | scalar hscalar => cases hscalar
    | fails hforced => exact .inr ⟨_, _, hforced, rfl⟩
    | forced hforced hvalue => exact .inl ⟨_, _, _, _, hforced, hvalue, rfl⟩
  · rintro (⟨v, s₁, asks₁, asks₂, hforced, hvalue, rfl⟩ | ⟨stop, s', hforced, rfl⟩)
    · exact .forced hforced hvalue
    · exact .fails hforced

theorem normal_single (w : Value) : Normal (W := W) E (.vector [w]) = Normal E w := by
  rw [normal_vector_cons, normal_empty, Trace.andThen_pure]

/-- a value that is left alone has nothing in it -/
theorem normal_leaf (hends : ∀ s, Normal (W := W) E v s [] (.ok () s))
    (honly : ∀ s asks result, Normal (W := W) E v s asks result → asks = [] ∧ result = .ok () s) :
    Normal (W := W) E v = Normal E (.vector []) := by
  rw [normal_empty]
  funext s asks result
  refine propext ⟨honly s asks result, ?_⟩
  rintro ⟨rfl, rfl⟩
  exact hends s

/-- Every value but a cell is normalized by normalizing what stands in it, from left to right. -/
theorem normal_children (hcell : ∀ r, v ≠ .lazy r) : Normal (W := W) E v = Normal E (.vector v.children) := by
  cases v with
  | unit | int | bool | str | fn =>
    refine normal_leaf (fun s => .scalar rfl) fun s asks result hnormal => ?_
    cases hnormal
    exact ⟨rfl, rfl⟩
  | opt item =>
    cases item with
    | none =>
      refine normal_leaf (fun s => .none) fun s asks result hnormal => ?_
      cases hnormal with
      | scalar hscalar => cases hscalar
      | none => exact ⟨rfl, rfl⟩
    | some w =>
      rw [Value.children, Option.toList_some, normal_single]
      funext s asks result
      refine propext ⟨fun hnormal => ?_, .some⟩
      cases hnormal with
      | scalar hscalar => cases hscalar
      | some hitem => exact hitem
  | box w =>
    rw [Value.children, normal_single]
    funext s asks result
    refine propext ⟨fun hnormal => ?_, .box⟩
    cases hnormal with
    | scalar hscalar => cases hscalar
    | box hitem => exact hitem
  | data d =>
    rw [Value.children]
    funext s asks result
    refine propext ⟨fun hnormal => ?_, .product⟩
    cases hnormal with
    | scalar hscalar => cases hscalar
    | product hfields => exact hfields
  | vector items => rfl
  | lazy r => exact absurd rfl (hcell r)
  | dyn d =>
    cases d with
    | data type payload =>
      rw [Value.children, normal_single]
      funext s asks result
      refine propext ⟨fun hnormal => ?_, .data⟩
      cases hnormal with
      | scalar hscalar => cases hscalar
      | data hpayload => exact hpayload
      | other hdata => exact absurd rfl (hdata type payload)
    | int | bool | sealed =>
      refine normal_leaf (fun s => .other nofun) fun s asks result hnormal => ?_
      cases hnormal with
      | scalar hscalar => cases hscalar
      | other hdata => exact ⟨rfl, rfl⟩

/-- **Normalizing type by type is going over the cells of the value.** Every cell takes a request, so there are fewer of
them left for what it holds. -/
theorem normal_iff_covers (hparts : ∀ v, E.parts v = v.parts) {s : Session W Code Value} {asks : List Ask}
    {result : EStateM.Result Stop (Session W Code Value) Unit} :
    Normal E v s asks result ↔ Covers E v v.parts s asks result := by
  -- outside on the number of requests, which a cell uses up; within, on the value, for what stands in it
  induction hn : asks.length using Nat.strongRecOn generalizing v s asks result with
  | ind n ih =>
    subst hn
    suffices h : ∀ asks' : List Ask, asks'.length ≤ asks.length → ∀ s result,
        Normal E v s asks' result ↔ Covers E v v.parts s asks' result from h asks le_rfl s result
    induction v using Value.induction with
    | node v hbelow =>
      intro asks' hle s result
      by_cases hcell : ∃ r, v = .lazy r
      · obtain ⟨r, rfl⟩ := hcell
        rw [normal_lazy, Value.parts, covers_cons, covers_nil]
        simp only [hparts, Trace.andThen_pure]
        refine Trace.andThen_congr forces_requests fun w s₁ asks₁ asks₂ _ hfewer => ?_
        exact ih asks₂.length (hfewer.trans_le hle) rfl
      · have hcell : ∀ r, v ≠ .lazy r := fun r hr => hcell ⟨r, hr⟩
        rw [normal_children hcell, Value.parts_eq hcell]
        clear hcell
        generalize v.children = vs at hbelow ⊢
        induction vs generalizing asks' s with
        | nil => rw [normal_empty, List.flatMap_nil, covers_nil]
        | cons w ws ihItems =>
          rw [normal_vector_cons, List.flatMap_cons, covers_append v w]
          have hitem := hbelow w List.mem_cons_self
          refine Trace.andThen_congr_of_le (fun asks₁ result₁ hle₁ => hitem asks₁ (hle₁.trans hle) s result₁) ?_
          intro _ s₁ asks₂ hle₂
          exact ihItems asks₂ (hle₂.trans hle) s₁ fun u hu => hbelow u (List.mem_cons_of_mem w hu)

end

end ByNeed
