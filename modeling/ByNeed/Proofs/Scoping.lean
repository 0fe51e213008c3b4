/-
What expressions mention.

An expression comes by addresses in three ways: from its local variables, from the named cells whose names occur in it,
and from the values it is given. `respected` says that there is no other way: evaluation of code that mentions only open
cells asks only for open cells, and leaves only open cells in values and in code. So cells that no other cell mentions,
by address or by name, stay out of reach of every program of the language.
-/
import ByNeed.Proofs.Hidden
import ByNeed.Expr.Eval

namespace ByNeed

/-! ## Names and addresses -/

mutual

/-- the names that occur in an expression, bound or free -/
def Expr.names : Expr → List String
  | .unit | .bool _ | .int _ | .str _ | .fail _ | .abort _ | .builtin _ | .accessor _ _ | .none | .dynInt _
  | .dynBool _ => []
  | .var x => [x]
  | .look x a => x :: a.names
  | .tick _ a | .delay a | .delayValue a | .lambda _ a | .coerce a | .arity a | .field _ _ a | .tag a | .lazy a
  | .some a
  | .box a | .nth a _ | .unbox a | .dynData _ a | .dynSealed _ a | .dynAsk _ a | .dynField _ _ a
  | .dynExpect _ a => a.names
  | .arith _ a b | .seq a b | .deepSeq a b | .letIn _ a b | .letRec _ a b | .recover a b => a.names ++ b.names
  | .cond c t f => c.names ++ (t.names ++ f.names)
  | .bind f args | .apply f args | .run f args => f.names ++ Expr.namesAll args
  | .con _ _ args | .vector args => Expr.namesAll args
  | .case a alts => a.names ++ Expr.namesIn alts

def Expr.namesAll : List Expr → List String
  | [] => []
  | e :: es => e.names ++ Expr.namesAll es

/-- the names in the bodies of alternatives -/
def Expr.namesIn : List (Tag × List String × Expr) → List String
  | [] => []
  | (_, _, e) :: alts => e.names ++ Expr.namesIn alts

end

def Scope.cells (S : Scope) (xs : List String) : List Ref := (xs.filterMap S.global).map Global.cell

/-- the cells within reach of an expression with names `xs` -/
def Scope.reach (S : Scope) (env : Env) (xs : List String) : List Ref := env.handles ++ S.cells xs

def FnCode.mentions (S : Scope) : FnCode → List Ref
  | .closure _ body env => S.reach env body.names
  | .builtin _ | .accessor _ _ => []

def Code.mentions (S : Scope) : Code → List Ref
  | .eval e env | .value e env => S.reach env e.names
  | .knot _ e env self => self :: S.reach env e.names
  | .enter f delivered => f.mentions S ++ delivered
  | .failing _ => []

mutual

def Value.mentions (S : Scope) : Value → List Ref
  | .fn f => f.code.mentions S ++ f.bound
  | .data d => d.fields
  | .vector items => Value.mentionsAll S items
  | .opt (some v) => v.mentions S
  | .box v => v.mentions S
  | .lazy r => [r]
  | .dyn (.data _ payload) | .dyn (.sealed _ payload) => payload.mentions S
  | .unit | .int _ | .bool _ | .str _ | .opt none | .dyn (.int _) | .dyn (.bool _) => []

def Value.mentionsAll (S : Scope) : List Value → List Ref
  | [] => []
  | v :: vs => v.mentions S ++ Value.mentionsAll S vs

end

mutual

/-- what deep forcing visits in a value, the value mentions -/
theorem Value.parts_subset (S : Scope) (v : Value) : v.parts ⊆ v.mentions S := by
  cases v with
  | vector items => exact Value.partsAll_subset S items
  | opt item =>
    cases item with
    | none => exact List.Subset.refl _
    | some v => exact Value.parts_subset S v
  | box v => exact Value.parts_subset S v
  | dyn d =>
    cases d with
    | data type payload => exact Value.parts_subset S payload
    | sealed type payload => exact List.nil_subset _
    | int | bool => exact List.Subset.refl _
  | fn f => exact List.nil_subset _
  | unit | int | bool | str | data | lazy => exact List.Subset.refl _

theorem Value.partsAll_subset (S : Scope) (vs : List Value) : Value.partsAll vs ⊆ Value.mentionsAll S vs := by
  cases vs with
  | nil => exact List.Subset.refl _
  | cons v vs =>
    exact List.append_subset.2 ⟨List.subset_append_of_subset_left _ (Value.parts_subset S v),
      List.subset_append_of_subset_right _ (Value.partsAll_subset S vs)⟩

end

theorem Value.fields_subset (S : Scope) (v : Value) : v.fields ⊆ v.mentions S := by
  cases v with
  | data d => exact List.Subset.refl _
  | _ => exact List.nil_subset _

theorem Value.mentions_subset_of_mem (S : Scope) {v : Value} {vs : List Value} (hmem : v ∈ vs) :
    v.mentions S ⊆ Value.mentionsAll S vs := by
  induction vs with
  | nil => cases hmem
  | cons w vs ih =>
    rcases List.mem_cons.1 hmem with rfl | hmem
    · exact List.subset_append_left _ _
    · exact List.subset_append_of_subset_right _ (ih hmem)

/-- what the expression language mentions -/
def Scope.sight (S : Scope) (H : Hiding) : Sight Code Value :=
  { H with code := Code.mentions S, value := Value.mentions S }

namespace Expr

open Sight (open_nil open_cons open_append)
open Sight.Discreet (demand whnf deepen newReady newDelay)

variable {H : Hiding} {S : Scope} {size : Nat} {env : Env} {rs : List Ref} {v : Value} {xs ys : List String}
  {α : Type} {post : Nat → α → Prop}

theorem open_reach (hscope : (S.sight H).Open size (S.reach env xs)) (hsub : ys ⊆ xs) :
    (S.sight H).Open size (S.reach env ys) := by
  obtain ⟨hlocals, hnamed⟩ := open_append.1 hscope
  refine open_append.2 ⟨hlocals, hnamed.subset (List.map_subset _ fun g hg => ?_)⟩
  obtain ⟨x, hmem, hglobal⟩ := List.mem_filterMap.1 hg
  exact List.mem_filterMap.2 ⟨x, hsub hmem, hglobal⟩

theorem open_lookup (hscope : (S.sight H).Open size (S.reach env xs)) {x : String} (hmem : x ∈ xs) {g : Global}
    (hfound : lookup S env x = .some g) : (S.sight H).Open size [g.cell] := by
  refine hscope.subset fun q hq => ?_
  rw [List.mem_singleton.1 hq, Scope.reach, List.mem_append]
  unfold lookup at hfound
  split at hfound
  · rename_i r hr
    cases hfound
    obtain ⟨before, after, hsplit, -⟩ := List.lookup_eq_some_iff.1 hr
    left
    rw [hsplit]
    simp [Env.handles]
  · right
    exact List.mem_map.2 ⟨g, List.mem_filterMap.2 ⟨x, hmem, hfound⟩, rfl⟩

/-- cells that are given names come within reach -/
theorem open_zip (params : List String) (hfields : (S.sight H).Open size rs)
    (hscope : (S.sight H).Open size (S.reach env xs)) :
    (S.sight H).Open size (S.reach ((params.zip rs).reverse ++ env) xs) := by
  obtain ⟨hlocals, hnamed⟩ := open_append.1 hscope
  refine open_append.2 ⟨fun r hr => ?_, hnamed⟩
  simp only [Env.handles, List.map_append, List.mem_append, List.mem_map, List.mem_reverse] at hr
  rcases hr with ⟨⟨x, q⟩, hmem, rfl⟩ | hmem
  · exact hfields q (List.of_mem_zip hmem).2
  · exact hlocals r (List.mem_map.2 hmem)

/-! ## Arguments -/

theorem discreet_suspend {e : Expr} (hscope : (S.sight H).Open size (S.reach env e.names)) :
    (S.sight H).Discreet (fun size r => (S.sight H).Open size [r]) size (suspend S env e) := by
  unfold suspend
  split
  · split
    · rename_i g hfound
      exact .done (open_lookup hscope (by simp [names]) hfound)
    · exact newDelay open_nil
  · split
    · rename_i v hliteral
      have hplain : v.mentions S = [] := by
        unfold literal? at hliteral
        split at hliteral <;> cases hliteral <;> simp [Value.mentions]
      refine newReady ?_
      change (S.sight H).Open size (v.mentions S)
      rw [hplain]
      exact open_nil
    · exact newDelay hscope

theorem discreet_suspendAll {es : List Expr} (hscope : (S.sight H).Open size (S.reach env (namesAll es))) :
    (S.sight H).Discreet (fun size rs => (S.sight H).Open size rs) size (suspendAll S env es) := by
  induction es generalizing size with
  | nil => exact .done open_nil
  | cons e es ih =>
    have hfirst : (S.sight H).Open size (S.reach env e.names) := open_reach hscope (by simp [namesAll])
    have hothers : (S.sight H).Open size (S.reach env (namesAll es)) := open_reach hscope (by simp [namesAll])
    refine (discreet_suspend hfirst).bind fun more hm r hr => ?_
    refine (ih (hothers.grow hm)).bind fun still hs rs hrs => ?_
    exact .done (open_cons.2 ⟨hr.grow hs, hrs⟩)

/-! ## Shapes that are needed

A check asks for nothing, so what comes after it still has as many cells. -/

theorem needInt_bind {f : Int64 → Task α} (hrest : ∀ n, (S.sight H).Discreet post size (f n)) :
    (S.sight H).Discreet post size (needInt v >>= f) := by
  cases v with
  | int n => exact hrest n
  | _ => exact .fail _

theorem needBool_bind {f : Bool → Task α} (hrest : ∀ b, (S.sight H).Discreet post size (f b)) :
    (S.sight H).Discreet post size (needBool v >>= f) := by
  cases v with
  | bool b => exact hrest b
  | _ => exact .fail _

theorem needFn_bind {f : Fn FnCode → Task α} (hgiven : (S.sight H).Open size (v.mentions S))
    (hrest : ∀ g, (S.sight H).Open size (g.code.mentions S ++ g.bound) → (S.sight H).Discreet post size (f g)) :
    (S.sight H).Discreet post size (needFn v >>= f) := by
  cases v with
  | fn g => exact hrest g hgiven
  | _ => exact .fail _

theorem needData_bind {f : Data → Task α} (hgiven : (S.sight H).Open size (v.mentions S))
    (hrest : ∀ d, (S.sight H).Open size d.fields → (S.sight H).Discreet post size (f d)) :
    (S.sight H).Discreet post size (needData v >>= f) := by
  cases v with
  | data d => exact hrest d hgiven
  | _ => exact .fail _

theorem needDyn_bind {f : Dynamic Value → Task α} (hgiven : (S.sight H).Open size (v.mentions S))
    (hrest : ∀ d, (S.sight H).Open size ((Value.dyn d).mentions S) → (S.sight H).Discreet post size (f d)) :
    (S.sight H).Discreet post size (needDyn v >>= f) := by
  cases v with
  | dyn d => exact hrest d hgiven
  | _ => exact .fail _

theorem needArity_bind {n : Nat} {f : Fn FnCode → Task α} (hgiven : (S.sight H).Open size (v.mentions S))
    (hrest : ∀ g, (S.sight H).Open size (g.code.mentions S ++ g.bound) → (S.sight H).Discreet post size (f g)) :
    (S.sight H).Discreet post size (needArity n v >>= f) := by
  cases v with
  | fn g =>
    unfold needArity
    dsimp only
    split_ifs
    · exact hrest g hgiven
    · exact .fail _
  | _ => exact .fail _

theorem open_position {i : Nat} {r : Ref} (hgiven : (S.sight H).Open size rs) (hposition : rs[i]? = .some r) :
    (S.sight H).Open size [r] := by
  refine hgiven.subset fun q hq => ?_
  rw [List.mem_singleton.1 hq]
  exact List.mem_of_getElem? hposition

theorem needField_bind {n i : Nat} {f : Ref → Task α} (hgiven : (S.sight H).Open size (v.mentions S))
    (hrest : ∀ r, (S.sight H).Open size [r] → (S.sight H).Discreet post size (f r)) :
    (S.sight H).Discreet post size (needField n i v >>= f) := by
  cases v with
  | data d =>
    have hfields : (S.sight H).Open size d.fields := hgiven
    unfold needField
    dsimp only
    split_ifs
    · split
      · rename_i r hposition
        exact hrest r (open_position hfields hposition)
      · exact .fail _
    · exact .fail _
  | _ => exact .fail _

theorem expect_bind {type : TypeId} {d : Dynamic Value} {f : Value → Task α}
    (hgiven : (S.sight H).Open size ((Value.dyn d).mentions S))
    (hrest : ∀ v, (S.sight H).Open size (v.mentions S) → (S.sight H).Discreet post size (f v)) :
    (S.sight H).Discreet post size (Comp.ofOutcome (d.expect type) >>= f) := by
  cases d with
  | int n => exact .fail _
  | bool b => exact .fail _
  | data own payload | sealed own payload =>
    simp only [Dynamic.expect, Dynamic.payload?]
    split_ifs
    · exact hrest payload hgiven
    · exact .fail _

theorem discreet_dynamicField (type : TypeId) (i : Nat) {d : Dynamic Value}
    (hgiven : (S.sight H).Open size ((Value.dyn d).mentions S)) :
    (S.sight H).Discreet (fun size r => (S.sight H).Open size [r]) size (dynamicField type i d) := by
  refine expect_bind hgiven fun v hv => ?_
  split
  · rename_i r hposition
    exact .done (open_position (hv.subset (v.fields_subset S)) hposition)
  · exact .fail _

theorem discreet_wrap (what : Wrapping) (hgiven : (S.sight H).Open size (v.mentions S)) :
    (S.sight H).Discreet (fun size p => (S.sight H).Open size (p.2.mentions S)) size (wrap S what v) := by
  cases what with
  | product => exact needData_bind hgiven fun d hd => .done hd
  | value => exact .done hgiven

/-- the cell that a value is, or the value itself -/
theorem open_next (hgiven : (S.sight H).Open size (v.mentions S)) :
    (S.sight H).Open size ((S.sight H).next v.next) := by
  cases v with
  | _ => exact hgiven

/-! ## Calls -/

theorem discreet_weigh (acc : Int64) (hgiven : (S.sight H).Open size rs) :
    (S.sight H).Discreet (fun _ _ => True) size (weigh acc rs) := by
  induction rs generalizing size acc with
  | nil => exact .done trivial
  | cons r rs ih =>
    obtain ⟨hfirst, hothers⟩ := open_cons.1 hgiven
    refine (demand hfirst).bind fun more hm v _ => needInt_bind fun n => ?_
    exact ih _ (hothers.grow hm)

theorem discreet_enter (f : FnCode) (hgiven : (S.sight H).Open size (f.mentions S ++ rs)) :
    (S.sight H).Discreet (fun size n => (S.sight H).Open size ((S.sight H).next n)) size (enter f rs) := by
  obtain ⟨hscope, hargs⟩ := open_append.1 hgiven
  unfold enter
  split
  · exact .done (open_zip _ hargs hscope)
  · refine (discreet_weigh 0 (hargs.subset (List.reverse_subset.2 fun r hr => hr))).bind fun more hm n _ => ?_
    exact .done open_nil
  · split
    · refine (demand hargs).bind fun more hm v _ => needInt_bind fun n => ?_
      cases Checked.neg n with
      | error e => exact .fail e
      | ok m => exact .done open_nil
    · exact .fail _
  · split
    · exact .done (open_cons.1 hargs).2
    · exact .fail _
  · split
    · exact (demand hargs).bind fun more hm v hv => needField_bind hv fun r hr => .done hr
    · exact .fail _

theorem discreet_bindAll (hgiven : (S.sight H).Open size (v.mentions S)) (hargs : (S.sight H).Open size rs) :
    (S.sight H).Discreet (fun size n => (S.sight H).Open size ((S.sight H).next n)) size (bindAll v rs) := by
  induction rs generalizing size v with
  | nil => exact .done hgiven
  | cons a rs ih =>
    obtain ⟨hfirst, hothers⟩ := open_cons.1 hargs
    refine needFn_bind hgiven fun g hg => ?_
    obtain ⟨hscope, hbound⟩ := open_append.1 hg
    have hcall : (S.sight H).Open size (g.code.mentions S ++ a :: g.bound) :=
      open_append.2 ⟨hscope, open_cons.2 ⟨hfirst, hbound⟩⟩
    by_cases hlast : g.missing ≤ 1
    · simp only [Fn.bindOne, if_pos hlast]
      refine (newDelay hcall).bind fun more hm r hr => ?_
      split_ifs
      · exact .done hr
      · exact (demand hr).bind fun still hs w hw => ih hw (hothers.grow (hm.le.trans hs))
    · simp only [Fn.bindOne, if_neg hlast]
      have hwaiting : (S.sight H).Open size ((Value.fn { g with bound := a :: g.bound }).mentions S) := hcall
      exact ih hwaiting hothers

theorem discreet_applyAll (hgiven : (S.sight H).Open size (v.mentions S)) (hargs : (S.sight H).Open size rs) :
    (S.sight H).Discreet (fun size n => (S.sight H).Open size ((S.sight H).next n)) size (applyAll v rs) := by
  refine needArity_bind hgiven fun g hg => ?_
  obtain ⟨hscope, hbound⟩ := open_append.1 hg
  have hdelivered : (S.sight H).Open size (g.applyAll rs) :=
    open_append.2 ⟨hargs.subset (List.reverse_subset.2 fun r hr => hr), hbound⟩
  exact (newDelay (open_append.2 ⟨hscope, hdelivered⟩)).bind fun more hm r hr => .done hr

/-! ## Expressions -/

theorem discreet_optional {o : Option Value} (hplain : ∀ v, o = .some v → v.mentions S = []) :
    (S.sight H).Discreet (fun size v => (S.sight H).Open size (v.mentions S)) size (optional o) := by
  cases o with
  | none => exact .done open_nil
  | some v =>
    have hheld : (S.sight H).Open size (v.mentions S) := by
      rw [hplain v rfl]
      exact open_nil
    exact (newReady hheld).bind fun more hm r hr => .done hr

theorem discreet_ask (d : Dynamic Value) (q : Question) :
    (S.sight H).Discreet (fun size v => (S.sight H).Open size (v.mentions S)) size (ask d q) := by
  have hplain : ∀ {γ : Type} (o : Option γ) (f : γ → Value), (∀ x, (f x).mentions S = []) →
      ∀ v, o.map f = .some v → v.mentions S = [] := by
    intro γ o f hf v hv
    obtain ⟨x, -, rfl⟩ := Option.map_eq_some_iff.1 hv
    exact hf x
  cases q with
  | tag => exact .done open_nil
  | typeName => exact .done open_nil
  | text => exact .done open_nil
  | int => exact discreet_optional (hplain _ _ fun _ => rfl)
  | bool => exact discreet_optional (hplain _ _ fun _ => rfl)
  | status => exact discreet_optional (hplain _ _ fun _ => rfl)

theorem mentions_arithmetic {op : Arith} {x y : Int64} (hresult : arithmetic op x y = .ok v) : v.mentions S = [] := by
  have hwhole : ∀ o : Outcome Int64, Value.int <$> o = .ok v → v.mentions S = [] := by
    intro o ho
    cases o with
    | error e => cases ho
    | ok n =>
      cases ho
      rfl
  cases op with
  | eq =>
    cases hresult
    rfl
  | lt =>
    cases hresult
    rfl
  | _ => exact hwhole _ hresult

theorem names_select {tag : Tag} {alts : List (Tag × List String × Expr)} {vars : List String} {body : Expr}
    (hfound : select tag alts = .some (vars, body)) : body.names ⊆ namesIn alts := by
  obtain ⟨⟨t, alt⟩, hfirst, rfl⟩ := Option.map_eq_some_iff.1 hfound
  have hmem := List.mem_of_find?_eq_some hfirst
  clear hfirst hfound
  induction alts with
  | nil => cases hmem
  | cons other alts ih =>
    obtain ⟨t', vars', body'⟩ := other
    simp only [namesIn]
    rcases List.mem_cons.1 hmem with hsame | hlater
    · cases hsame
      exact List.subset_append_left _ _
    · exact List.subset_append_of_subset_right _ (ih hlater)

/-- evaluation of a subexpression: the names of the whole stay within reach -/
theorem whnf_bind {a : Expr} {f : Value → Task α} (hscope : (S.sight H).Open size (S.reach env xs))
    (hsub : a.names ⊆ xs)
    (hrest : ∀ more ≥ size, (S.sight H).Open more (S.reach env xs) → ∀ v, (S.sight H).Open more (v.mentions S) →
      (S.sight H).Discreet post more (f v)) :
    (S.sight H).Discreet post size (.whnf (.eval a env) >>= f) :=
  (whnf (open_reach hscope hsub)).bind fun more hm v hv => hrest more hm (hscope.grow hm) v hv

theorem discreet_evalAll {es : List Expr} (hscope : (S.sight H).Open size (S.reach env (namesAll es))) :
    (S.sight H).Discreet (fun size vs => (S.sight H).Open size (Value.mentionsAll S vs)) size (evalAll env es) := by
  induction es generalizing size with
  | nil => exact .done open_nil
  | cons e es ih =>
    refine whnf_bind hscope (by simp [namesAll]) fun more _ hscope v hv => ?_
    have hothers : (S.sight H).Open more (S.reach env (namesAll es)) := open_reach hscope (by simp [namesAll])
    exact (ih hothers).bind fun still hs vs hvs => .done (open_append.2 ⟨hv.grow hs, hvs⟩)

/-- **Evaluation mentions only what is in reach.** -/
theorem discreet_eval {e : Expr} (hscope : (S.sight H).Open size (S.reach env e.names)) :
    (S.sight H).Discreet (fun size n => (S.sight H).Open size ((S.sight H).next n)) size (eval S env e) := by
  cases e with
  | unit => exact .done open_nil
  | bool b => exact .done open_nil
  | int n => exact .done open_nil
  | str s => exact .done open_nil
  | fail err => exact .fail err
  | abort text => exact .abort text
  | builtin f => exact .done open_nil
  | accessor n i => exact .done open_nil
  | none => exact .done open_nil
  | dynInt n => exact .done open_nil
  | dynBool b => exact .done open_nil
  | lambda params body =>
    simp only [names] at hscope
    exact .done (open_append.2 ⟨hscope, open_nil⟩)
  | var x =>
    simp only [eval]
    split
    · rename_i g hfound
      exact .done (open_lookup hscope (by simp [names]) hfound)
    · exact .fail _
  | look x a =>
    have hbody : (S.sight H).Open size (S.reach env a.names) := open_reach hscope (by simp [names])
    simp only [eval]
    split
    · exact (Sight.Discreet.statusOf _).bind fun more hm s _ =>
        (Sight.Discreet.record _).bind fun still hs _ _ => .done (hbody.grow (hm.le.trans hs))
    · exact .fail _
  | tick label a =>
    simp only [names] at hscope
    exact (Sight.Discreet.record label).bind fun more hm _ _ => .done (hscope.grow hm)
  | delay a =>
    simp only [names] at hscope
    exact (newDelay hscope).bind fun more hm r hr => .done hr
  | delayValue a =>
    simp only [names] at hscope
    exact (newDelay hscope).bind fun more hm r hr => .done hr
  | letIn x a b =>
    have hfirst : (S.sight H).Open size (S.reach env a.names) := open_reach hscope (by simp [names])
    have hbody : (S.sight H).Open size (S.reach env b.names) := open_reach hscope (by simp [names])
    refine (discreet_suspend hfirst).bind fun more hm r hr => ?_
    exact .done (open_cons.2 ⟨hr, hbody.grow hm⟩)
  | letRec x a b =>
    have hfirst : (S.sight H).Open size (S.reach env a.names) := open_reach hscope (by simp [names])
    have hbody : (S.sight H).Open size (S.reach env b.names) := open_reach hscope (by simp [names])
    refine .delay (fun more hm r hr => ?_) fun more hm r hr => .done ?_
    · exact open_cons.2 ⟨hr, hfirst.grow hm⟩
    · exact open_cons.2 ⟨hr, hbody.grow hm⟩
  | field n i a =>
    simp only [names] at hscope
    refine (discreet_suspend hscope).bind fun more hm r hr => ?_
    exact (newDelay hr).bind fun still hs q hq => .done hq
  | con type t args =>
    simp only [names] at hscope
    exact (discreet_suspendAll hscope).bind fun more hm rs hrs => .done hrs
  | lazy a =>
    simp only [names] at hscope
    exact (discreet_suspend hscope).bind fun more hm r hr => .done hr
  | vector items =>
    simp only [names] at hscope
    exact (discreet_evalAll hscope).bind fun more hm vs hvs => .done hvs
  | some a => exact whnf_bind hscope (by simp [names]) fun more _ _ v hv => .done hv
  | box a => exact whnf_bind hscope (by simp [names]) fun more _ _ v hv => .done hv
  | arith op a b =>
    refine whnf_bind hscope (by simp [names]) fun more _ hscope v _ => needInt_bind fun x => ?_
    refine whnf_bind hscope (by simp [names]) fun still _ _ w _ => needInt_bind fun y => ?_
    refine (Sight.Discreet.ofOutcome fun v hv => ?_).bind fun _ _ v hv => .done hv
    change (S.sight H).Open still (v.mentions S)
    rw [mentions_arithmetic hv]
    exact open_nil
  | cond c t f =>
    refine whnf_bind hscope (by simp [names]) fun more _ hscope v _ => needBool_bind fun b => .done ?_
    cases b with
    | true => exact open_reach hscope (by simp [names])
    | false => exact open_reach hscope (by simp [names])
  | seq a b =>
    exact whnf_bind hscope (by simp [names]) fun more _ hscope v _ => .done (open_reach hscope (by simp [names]))
  | deepSeq a b =>
    refine whnf_bind hscope (by simp [names]) fun more _ hscope v hv => ?_
    exact (deepen hv).bind fun still hs _ _ => .done (open_reach (hscope.grow hs) (by simp [names]))
  | recover a b =>
    have hfirst : (S.sight H).Open size (S.reach env a.names) := open_reach hscope (by simp [names])
    have hsecond : (S.sight H).Open size (S.reach env b.names) := open_reach hscope (by simp [names])
    refine (whnf hfirst).attempt.bind fun more hm o ho => ?_
    cases o with
    | ok v => exact .done (ho v rfl)
    | error err =>
      exact (Sight.Discreet.record _).bind fun still hs _ _ => .done (hsecond.grow (hm.le.trans hs))
  | bind f args =>
    refine whnf_bind hscope (by simp [names]) fun more _ hscope v hv => ?_
    have hargs : (S.sight H).Open more (S.reach env (namesAll args)) := open_reach hscope (by simp [names])
    exact (discreet_suspendAll hargs).bind fun still hs rs hrs => discreet_bindAll (hv.grow hs) hrs
  | apply f args =>
    refine whnf_bind hscope (by simp [names]) fun more _ hscope v hv => ?_
    have hargs : (S.sight H).Open more (S.reach env (namesAll args)) := open_reach hscope (by simp [names])
    exact (discreet_suspendAll hargs).bind fun still hs rs hrs => discreet_applyAll (hv.grow hs) hrs
  | run f args =>
    refine whnf_bind hscope (by simp [names]) fun more _ hscope v hv => ?_
    have hargs : (S.sight H).Open more (S.reach env (namesAll args)) := open_reach hscope (by simp [names])
    refine (discreet_suspendAll hargs).bind fun still hs rs hrs => ?_
    refine needArity_bind (hv.grow hs) fun g hg => ?_
    obtain ⟨hcode, hbound⟩ := open_append.1 hg
    exact .done (open_append.2 ⟨hcode, open_append.2 ⟨hrs, hbound⟩⟩)
  | coerce f =>
    exact whnf_bind hscope (by simp [names]) fun more _ _ v hv => needFn_bind hv fun g hg => .done hg
  | arity f =>
    refine whnf_bind hscope (by simp [names]) fun more _ _ v hv => ?_
    cases v with
    | fn g => exact .done open_nil
    | data d =>
      dsimp only
      split_ifs
      · exact .fail _
      · exact .done open_nil
    | _ => exact .fail _
  | tag a => exact whnf_bind hscope (by simp [names]) fun more _ _ v hv => .done open_nil
  | case a alts =>
    refine whnf_bind hscope (by simp [names]) fun more _ hscope v hv => needData_bind hv fun d hd => ?_
    split
    · rename_i vars body hfound
      have hsub : body.names ⊆ (Expr.case a alts).names := by
        simp only [names]
        exact List.subset_append_of_subset_right _ (names_select hfound)
      exact .done (open_zip vars hd (open_reach hscope hsub))
    · exact .fail _
  | nth a i =>
    refine whnf_bind hscope (by simp [names]) fun more _ _ v hv => ?_
    cases v with
    | vector items =>
      dsimp only
      split
      · rename_i item hposition
        have hfound : item ∈ items := List.mem_of_getElem? hposition
        exact .done (open_next (Sight.Open.subset hv (Value.mentions_subset_of_mem S hfound)))
      · exact .fail _
    | _ => exact .fail _
  | unbox a =>
    refine whnf_bind hscope (by simp [names]) fun more _ _ v hv => ?_
    cases v with
    | box item => exact .done (open_next hv)
    | opt item =>
      cases item with
      | some item => exact .done (open_next hv)
      | none => exact .fail _
    | _ => exact .fail _
  | dynData what a =>
    refine whnf_bind hscope (by simp [names]) fun more _ _ v hv => ?_
    exact (discreet_wrap what hv).bind fun still _ p hp => .done hp
  | dynSealed what a =>
    refine whnf_bind hscope (by simp [names]) fun more _ _ v hv => ?_
    exact (discreet_wrap what hv).bind fun still _ p hp => .done hp
  | dynAsk q a =>
    refine whnf_bind hscope (by simp [names]) fun more _ _ v hv => needDyn_bind hv fun d _ => ?_
    exact (discreet_ask d q).bind fun still _ w hw => .done hw
  | dynField type i a =>
    refine whnf_bind hscope (by simp [names]) fun more _ _ v hv => needDyn_bind hv fun d hd => ?_
    exact (discreet_dynamicField type i hd).bind fun still _ r hr => .done hr
  | dynExpect type a =>
    refine whnf_bind hscope (by simp [names]) fun more _ _ v hv => needDyn_bind hv fun d hd => ?_
    exact expect_bind hd fun w hw => .done hw

/-- The engine of the language, however many steps it allows, never goes beyond what code and values mention. -/
theorem respected (S : Scope) (H : Hiding) (fuel : Nat) : (S.sight H).Respected (S.engine fuel) := by
  refine ⟨fun size c hc => ?_, fun v => ?_⟩
  · cases c with
    | eval e env => exact discreet_eval hc
    | value e env =>
      have hscope : (S.sight H).Open size (S.reach env e.names) := hc
      change (S.sight H).Discreet _ size (.whnf (.eval e env) >>= fun v => .done (Next.value v))
      exact whnf_bind hscope (List.Subset.refl _) fun more _ _ v hv => .done hv
    | knot x e env self =>
      have hscope : (S.sight H).Open size (S.reach ((x, self) :: env) e.names) := hc
      exact discreet_eval hscope
    | enter f delivered => exact discreet_enter f hc
    | failing e => exact .fail e
  · exact Value.parts_subset S v

end Expr

end ByNeed
