/-
Binding arguments one at a time, and all at once.

A function of the expression language gets its arguments through `Expr.bindAll`, one at a time, or through
`Expr.applyAll`, all that are missing at once. Both are computations; what they ask of the evaluator is part of what they
are.

- `bindAll_waiting`: as long as arguments are missing, binding makes no request at all.
- `bindAll_saturated`, `applyAll_saturated`: the last argument, or all at once, makes one cell, which holds the call.
- `Machine.Run.claims_code`: the code of a cell is handed out once, when the cell is demanded first, and runs then.
- `arity_reduction`: however the arguments are split up, the result is the same cell, and forcing it makes the call once,
  with the arguments in reverse order.
-/
import ByNeed.Proofs.Lifecycle
import ByNeed.Expr.Eval

namespace ByNeed

/-! ## Binding -/

namespace Fn

variable {F : Type}

/-- a function with more arguments bound, in application order -/
def bindMany (f : Fn F) (args : List Ref) : Fn F := { f with bound := args.reverse ++ f.bound }

theorem missing_bindMany (f : Fn F) (args : List Ref) : (f.bindMany args).missing = f.missing - args.length := by
  simp only [missing, bindMany, List.length_append, List.length_reverse]
  omega

theorem bindMany_cons (f : Fn F) (a : Ref) (args : List Ref) :
    ({ f with bound := a :: f.bound } : Fn F).bindMany args = f.bindMany (a :: args) := by
  simp [bindMany]

/-- arguments are delivered in the same order whether some of them were bound before or not -/
theorem applyAll_bindMany (f : Fn F) (first rest : List Ref) :
    (f.bindMany first).applyAll rest = f.applyAll (first ++ rest) := by
  simp [applyAll, bindMany]

theorem missing_cons (f : Fn F) (a : Ref) : ({ f with bound := a :: f.bound } : Fn F).missing = f.missing - 1 := by
  simp only [missing, List.length_cons]
  omega

theorem bindOne_of_lt {f : Fn F} (hmore : 1 < f.missing) (a : Ref) :
    f.bindOne a = .waiting { f with bound := a :: f.bound } := by
  rw [bindOne, if_neg (Nat.not_le.2 hmore)]

end Fn

namespace Expr

/-- makes a cell that holds the call of `f` with all its arguments, in application order -/
def newCall (f : Fn FnCode) (args : List Ref) : Task (Next Code Value) :=
  .delay (fun _ => .enter f.code (f.applyAll args)) fun r => .done (.cell r)

theorem newCall_bindMany (f : Fn FnCode) (first rest : List Ref) :
    newCall (f.bindMany first) rest = newCall f (first ++ rest) := by
  rw [newCall, Fn.applyAll_bindMany]
  rfl

/-- an argument that is not the last one is bound without a request -/
theorem bindAll_cons {f : Fn FnCode} (hmore : 1 < f.missing) (a : Ref) (args : List Ref) :
    bindAll (.fn f) (a :: args) = bindAll (.fn { f with bound := a :: f.bound }) args := by
  simp [bindAll, needFn, Fn.bindOne_of_lt hmore, Comp.bind]

/-- binding fewer arguments than are missing asks nothing of the evaluator -/
theorem bindAll_waiting {f : Fn FnCode} {args : List Ref} (hfew : args.length < f.missing) :
    bindAll (.fn f) args = .done (.value (.fn (f.bindMany args))) := by
  induction args generalizing f with
  | nil => rfl
  | cons a args ih =>
    rw [List.length_cons] at hfew
    have hrest : args.length < ({ f with bound := a :: f.bound } : Fn FnCode).missing := by
      rw [Fn.missing_cons]
      omega
    rw [bindAll_cons (by omega) a args, ih hrest, Fn.bindMany_cons]

/-- binding the last argument makes the cell of the call -/
theorem bindAll_saturated {f : Fn FnCode} {args : List Ref} (hall : args.length = f.missing) (hnonempty : args ≠ []) :
    bindAll (.fn f) args = newCall f args := by
  induction args generalizing f with
  | nil => exact absurd rfl hnonempty
  | cons a args ih =>
    rw [List.length_cons] at hall
    cases args with
    | nil =>
      have hone : f.missing ≤ 1 := Nat.le_of_eq hall.symm
      have hlast : f.bindOne a = .saturated f.code (a :: f.bound) := by rw [Fn.bindOne, if_pos hone]
      simp [bindAll, needFn, hlast, Comp.newDelay, Comp.bind, newCall, Fn.applyAll]
    | cons b args =>
      rw [List.length_cons] at hall
      have hrest : (b :: args).length = ({ f with bound := a :: f.bound } : Fn FnCode).missing := by
        rw [Fn.missing_cons, List.length_cons]
        omega
      rw [bindAll_cons (by omega) a, ih hrest (List.cons_ne_nil b args)]
      exact newCall_bindMany f [a] (b :: args)

theorem applyAll_saturated {f : Fn FnCode} {args : List Ref} (hall : args.length = f.missing) :
    applyAll (.fn f) args = newCall f args := by
  simp [applyAll, needArity, hall, Comp.newDelay, Comp.bind, newCall]

end Expr

/-! ## The call -/

namespace Machine

variable {C V : Type} {E : Engine Empty C V}

/-- code that is handed out is what runs next -/
theorem control_of_granted {m : Machine C V} {r : Ref} {c : C} (hgranted : m.granted? = some r)
    (hcode : m.heap[r]? = some (.pending c)) : (m.step E).control = .run (E.body c) := by
  obtain ⟨heap, events, control, stack⟩ := m
  have hwant : wanted? ⟨heap, events, control, stack⟩ = some r := (Option.filter_eq_some_iff.1 hgranted).1
  have hclaim : heap.claim r = (.granted c, heap.setIfInBounds r (.busy ())) := by
    have hcode' : heap[r]? = some (.pending c) := hcode
    simp [Heap.claim, hcode']
  unfold wanted? at hwant
  split at hwant
  · simp_all [step]
  · simp_all [step, conclude]
  · cases hwant

/-- the code of a cell is handed out exactly once, at the moment when the cell ceases to have it, and runs then -/
theorem Run.claims_code {m₀ m : Machine C V} {given : List Ref} (hrun : Run E m₀ given m)
    (hheld : Held m₀.heap fun _ => m₀.held) {r : Ref} {c : C} (hcode : m₀.heap[r]? = some (.pending c)) :
    given.count r = (if m.heap.status r = .unevaluated then 0 else 1) ∧
      (m.granted? = some r → (m.step E).control = .run (E.body c)) := by
  have honce := hrun.once hheld
  by_cases hr : r ∈ given
  · obtain ⟨x, hx, hspent⟩ := honce.spent r hr
    have hstatus : m.heap.status r ≠ .unevaluated := by
      cases x with
      | pending c' => exact absurd rfl (hspent c')
      | busy | value | failed => simp [Heap.status, hx, Cell.status]
    refine ⟨?_, fun hgranted => ?_⟩
    · rw [if_neg hstatus, List.count_eq_one_of_mem honce.nodup hr]
    · obtain ⟨⟨c', hc'⟩, -⟩ := (granted?_eq_some_iff E m r).1 hgranted
      rw [hx] at hc'
      exact absurd (Option.some.inj hc') (hspent c')
  · have hcode' := hrun.keeps_code hheld hcode hr
    have hstatus : m.heap.status r = .unevaluated := by simp [Heap.status, hcode', Cell.status]
    refine ⟨?_, fun hgranted => control_of_granted hgranted hcode'⟩
    rw [if_pos hstatus, List.count_eq_zero_of_not_mem hr]

end Machine

namespace Expr

open Machine

/-- **However arguments are split up, the call is the same.** Bind fewer arguments than a function misses, one at a time:
this asks nothing of the evaluator and gives a function `g`. Whatever is given to `g` later, and however often `g` is
used, applying it to the rest at once or binding the rest one at a time is the same computation as applying the
function to all arguments at once. From every state that can be reached, it makes one cell and leaves the others and
the events alone. Over everything that is forced from then on, the function is called exactly once, when that cell is
demanded first, with the last argument in front. -/
theorem arity_reduction (S : Scope) (fuel : Nat) (f : Fn FnCode) {first : List Ref}
    (hfew : first.length < f.missing) :
    ∃ g, bindAll (.fn f) first = .done (.value (.fn g)) ∧
      ∀ rest : List Ref, first.length + rest.length = f.missing →
      ∀ split, split = applyAll (.fn g) rest ∨ split = bindAll (.fn g) rest →
        split = applyAll (.fn f) (first ++ rest) ∧
        ∀ m₀ before heap events stack, m₀.stack = [] →
          Run (S.engine fuel) m₀ before ⟨heap, events, .run split, stack⟩ →
          step (S.engine fuel) ⟨heap, events, .run split, stack⟩ =
            ⟨heap.push (.pending (.enter f.code ((first ++ rest).reverse ++ f.bound))), events,
              .run (.done (.cell heap.size)), stack⟩ ∧
          ∀ given m, Run (S.engine fuel) (step (S.engine fuel) ⟨heap, events, .run split, stack⟩) given m →
            given.count heap.size = (if m.heap.status heap.size = .unevaluated then 0 else 1) ∧
            (m.granted? = .some heap.size →
              (m.step (S.engine fuel)).control = .run (enter f.code ((first ++ rest).reverse ++ f.bound))) := by
  refine ⟨f.bindMany first, bindAll_waiting hfew, fun rest hwhole split hhow => ?_⟩
  have hall : rest.length = (f.bindMany first).missing := by
    rw [Fn.missing_bindMany]
    omega
  have hnonempty : rest ≠ [] := by
    rintro rfl
    rw [List.length_nil] at hwhole
    omega
  have hsplit : split = newCall f (first ++ rest) := by
    rw [← newCall_bindMany]
    rcases hhow with rfl | rfl
    · exact applyAll_saturated hall
    · exact bindAll_saturated hall hnonempty
  have hwhole' : applyAll (.fn f) (first ++ rest) = newCall f (first ++ rest) :=
    applyAll_saturated (by rw [List.length_append, hwhole])
  refine ⟨hsplit.trans hwhole'.symm, fun m₀ before heap events stack hidle hrun => ?_⟩
  refine ⟨by rw [hsplit]; rfl, fun given m hlater => ?_⟩
  -- the step that makes the cell belongs to the run, so what is held there is in order
  have hheld := hrun.step.held (held_of_idle hidle)
  have hcode : (step (S.engine fuel) ⟨heap, events, .run split, stack⟩).heap[heap.size]? =
      .some (.pending (.enter f.code ((first ++ rest).reverse ++ f.bound))) := by
    rw [hsplit]
    simp [step, request, newCall, Fn.applyAll]
  exact hlater.claims_code hheld hcode

def emptyScope : Scope := ⟨fun _ => .none, ⟨0, "value"⟩⟩

/-- `weigh` of three arguments, the first and the last of which are the same cell, bound at once and one at a time; the
call comes to 1 · 31² + 2 · 31 + 1 -/
theorem arity_reduction_weigh :
    let f : Fn FnCode := .ofCode (.builtin (.weigh 3)) 3
    let h : Heap Unit Code Value := #[.pending (.eval (.int 1) []), .value (.int 2)]
    ∃ g, bindAll (.fn f) [0] = .done (.value (.fn g)) ∧
      applyAll (.fn g) [1, 0] = applyAll (.fn f) [0, 1, 0] ∧ bindAll (.fn g) [1, 0] = applyAll (.fn f) [0, 1, 0] ∧
      ∃ given m,
        Run (emptyScope.engine 0) (step (emptyScope.engine 0) ⟨h, [], .run (bindAll (.fn g) [1, 0]), []⟩) given m ∧
        m.heap.outcome? 2 = .some (.ok (.int 1024)) ∧ given.count 2 = 1 := by
  intro f h
  obtain ⟨g, hbound, hsplits⟩ := arity_reduction emptyScope 0 f (by decide : [0].length < f.missing)
  obtain ⟨honce, -⟩ := hsplits [1, 0] rfl _ (.inl rfl)
  obtain ⟨heach, hcalls⟩ := hsplits [1, 0] rfl _ (.inr rfl)
  obtain ⟨hmade, hlater⟩ := hcalls _ [] h [] [] rfl .start
  refine ⟨g, hbound, honce, heach, ?_⟩
  rw [hmade] at hlater ⊢
  -- the cell is made, then forced from outside
  obtain ⟨given, m, hrun, houtcome, hstatus⟩ : ∃ given m, Run (emptyScope.engine 0)
      ⟨#[.pending (.eval (.int 1) []), .value (.int 2), .pending (.enter (.builtin (.weigh 3)) [0, 1, 0])], [],
        .run (.done (.cell 2)), []⟩ given m ∧
      m.heap.outcome? 2 = .some (.ok (.int 1024)) ∧ m.heap.status 2 = .evaluated := by
    refine ⟨_, _, (Run.start.step.shallow ?_ 2).step.step.step.step.step.step.step.step.step.step.step.step.step.step,
      ?_, ?_⟩
    · rfl
    · rfl
    · rfl
  obtain ⟨hcount, -⟩ := hlater given m hrun
  rw [show h.size = 2 from rfl, hstatus] at hcount
  exact ⟨given, m, hrun, houtcome, hcount⟩

end Expr

end ByNeed
