/-
Programs that do one job and print.

The result of such a program is the unit value, so nothing is left to demand of it and no status is reported.
- `takeFrom_world`: reading a list is not seen from outside.
- `runProgram_prints`: the program ends as its job ends, and what the job has written is all that is captured.
-/
import ByNeed.Demo.Programs
import ByNeed.Proofs.Lifecycle
import ByNeed.Proofs.Io.Captured

namespace ByNeed.Demo

open Dialect

variable {σ μ : Type} [Device (σ × μ)] {fuel : Nat} {main : Ref} {job : Job}
  {s s₀ s₁ : Session (Context σ μ) Code Value}

/-- reading a list leaves the world alone -/
theorem takeFrom_world {W : Type} (E : Engine Empty Code Value) (seen : List Value) (n : Nat) (xs : Ref)
    (s : Session W Code Value) : (Host.ending (takeFrom E seen n xs s)).world = s.world := by
  induction n generalizing seen xs s with
  | zero => rfl
  | succ n ih =>
    refine Host.bind_world (Host.force_world E xs) (fun v => ?_) s
    cases v with
    | cons head tail => exact Host.bind_world (Host.force_world E head) fun w => ih (w :: seen) tail
    | _ => exact fun _ => rfl

omit [Device (σ × μ)] in
/-- there is nothing to demand of a unit value -/
theorem forceDeep_unit (henough : 2 ≤ fuel) {r : Ref} (hunit : s.heap.outcome? r = some (.ok .unit)) :
    Host.forceDeep (engine fuel) r s = .ok .unit s := by
  rw [Host.forceDeep_of_outcome? henough hunit]
  obtain ⟨n, rfl⟩ := Nat.exists_eq_add_of_le' henough
  rfl

/-- an entry cell that holds an action is entered at once -/
theorem enters_ready (henough : 2 ≤ fuel) {a : Action Job}
    (hready : s.heap.outcome? main = some (.ok (.action a))) : (dialect fuel).Enters main s a s := by
  refine ⟨.action a, ?_, rfl⟩
  exact (bind_ok (Host.outcome_of_outcome? henough hready)).trans rfl

/-- **A program that prints.** Its job runs, and then its result, the unit value, is made. -/
theorem runProgram_prints (henough : 2 ≤ fuel) (henters : (dialect fuel).Enters main s (.primitive job) s₀)
    {x : Host (Context σ μ) Code Value Unit}
    (hperforms : Job.perform (engine fuel) job s₀ = (x >>= fun _ => Host.ready .unit) s₀) {o : Outcome Unit}
    (hran : Host.attempt x s₀ = .ok o s₁) (hcaptured : s₁.world.Captured) :
    ∃ s', (dialect fuel).runProgram main s = .ok ((o.map fun _ => none).mapError .eval) s' ∧
      ∀ stream, (s'.world.handle stream).buffer = [] ∧
        (s'.world.handle stream).delivered = (s₁.world.handle stream).account := by
  have hbegun : (Action.primitive job).run (dialect fuel).perform s₀ = (x >>= fun _ => Host.ready .unit) s₀ := hperforms
  cases o with
  | error e =>
    have hfailed := hbegun.trans (bind_error (Host.attempt_failed_iff.1 hran))
    have hexecuted := Host.attempt_failed (henters.execute.trans (bind_error hfailed))
    obtain ⟨c, hreturned, -, hflushed⟩ := runProgram_captured hexecuted hcaptured
    exact ⟨_, hreturned, hflushed⟩
  | ok _ =>
    let s₂ : Session (Context σ μ) Code Value := ⟨s₁.heap.push (.value .unit), s₁.events, s₁.world⟩
    have hmade : (Action.primitive job).run (dialect fuel).perform s₀ = .ok s₁.heap.size s₂ :=
      hbegun.trans (bind_ok (Host.attempt_ok_iff.1 hran))
    have hunit : s₂.heap.outcome? s₁.heap.size = some (.ok .unit) :=
      Heap.outcome?_eq_some.2 Array.getElem?_push_size
    have hdeep := forceDeep_unit henough hunit
    have hexecuted := Host.attempt_ok (henters.execute.trans ((bind_ok hmade).trans (bind_ok hdeep)))
    obtain ⟨c, hreturned, -, hflushed⟩ := runProgram_captured hexecuted hcaptured
    exact ⟨_, hreturned, hflushed⟩

end ByNeed.Demo
