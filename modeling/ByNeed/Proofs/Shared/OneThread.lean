/-
Shared cells on one thread.

The evaluator and a pool of one thread are written separately: the pool asks who owns a claimed cell, may have to wait,
and publishes a walk cell by cell, where the evaluator stores its outcome at once. Every state of the evaluator is
carried over to a pool of one thread (`Machine.share`), with thread 0 as the owner of every cell that is claimed.

- `step_share`: one step of the evaluator is one or more moves of the thread, none of which has to wait.
- `run_share`, `run_of_share`: the evaluator comes to a halt if and only if the thread does, in the same state.
- `calls_agree`: any sequence of calls from outside gets the same answers from both, with the same events and the
  same cells after every call, or never ends in both.
-/
import ByNeed.Proofs.Order
import ByNeed.Proofs.Shared.Ownership
import ByNeed.Shared.Host

namespace ByNeed

variable {W C V : Type}

/-! ## Cells carried over -/

/-- the same cell among shared ones; what is claimed belongs to thread 0 -/
def Cell.share : Cell Unit C V → Cell ThreadId C V
  | .pending c => .pending c
  | .busy _ => .busy 0
  | .value v => .value v
  | .failed e => .failed e

@[simp]
theorem Cell.share_ofOutcome (o : Outcome V) : (Cell.ofOutcome o : Cell Unit C V).share = .ofOutcome o := by
  cases o <;> rfl

@[simp]
theorem Cell.status_share (x : Cell Unit C V) : x.share.status = x.status := by
  cases x <;> rfl

theorem Cell.owner_of_share {x : Cell Unit C V} {owner : ThreadId} (h : x.share = .busy owner) : owner = 0 := by
  cases x with
  | busy => exact (Cell.busy.inj h).symm
  | pending | value | failed => cases h

namespace Heap

def share (h : Heap Unit C V) : Heap ThreadId C V := (h.toList.map Cell.share).toArray

@[simp]
theorem getElem?_share (h : Heap Unit C V) (r : Ref) : h.share[r]? = h[r]?.map Cell.share := by
  simp [share]

@[simp]
theorem size_share (h : Heap Unit C V) : h.share.size = h.size := by
  simp [share]

@[simp]
theorem status_share (h : Heap Unit C V) (r : Ref) : h.share.status r = h.status r := by
  simp only [status, getElem?_share]
  cases h[r]? <;> simp

theorem share_push (h : Heap Unit C V) (x : Cell Unit C V) : share (h.push x) = h.share.push x.share := by
  simp [share]

theorem share_settle (h : Heap Unit C V) (o : Outcome V) (r : Ref) : (h.settle o r).share = h.share.settle o r := by
  simp [share, settle]

theorem share_settleAll (h : Heap Unit C V) (o : Outcome V) (rs : List Ref) :
    (h.settleAll o rs).share = h.share.settleAll o rs := by
  induction rs generalizing h with
  | nil => rfl
  | cons r rs ih => rw [settleAll_cons, ih, share_settle, ← settleAll_cons]

/-- in which order one outcome is stored in some cells makes no difference -/
theorem settleAll_reverse {O : Type} (h : Heap O C V) (o : Outcome V) (rs : List Ref) :
    h.settleAll o rs.reverse = h.settleAll o rs := by
  apply Array.ext_getElem?
  intro i
  simp only [getElem?_settleAll, List.mem_reverse]

/-- thread 0 gets the answer that a claim without owners gets, and never has to wait -/
theorem claimBy_share (h : Heap Unit C V) (r : Ref) :
    h.share.claimBy 0 r = (some (h.claim r).1, (h.claim r).2.share) := by
  unfold claimBy claim
  rw [getElem?_share]
  cases h[r]? with
  | none => rfl
  | some x => cases x <;> simp [Cell.share, share]

theorem heldByOther_share (h : Heap Unit C V) (r : Ref) : h.share.heldByOther 0 r = false := by
  unfold heldByOther
  rw [getElem?_share]
  cases h[r]? with
  | none => rfl
  | some x => cases x <;> rfl

end Heap

/-! ## One step -/

/-- below every computation that waits stands the frame that gets its result -/
def Grounded : List (Frame Empty C V) → Prop
  | [] => True
  | .resume _ :: stack => stack ≠ [] ∧ Grounded stack
  | .walk _ :: stack | .visit _ _ :: stack => Grounded stack

namespace Machine

/-- a computation that runs or has ended stands on the frame that gets its result, and so do those that wait -/
structure Rooted (m : Machine C V) : Prop where
  stack : Grounded m.stack
  running : ∀ c, m.control = .run c → m.stack ≠ []
  ended : ∀ t, m.control = .ended t → m.stack ≠ []

/-- no computation runs or has ended -/
def passive (m : Machine C V) : Bool :=
  match m.control with
  | .run _ | .ended _ => false
  | .demand _ | .give _ | .traverse _ _ | .unwind _ => true

theorem rooted_of_passive {m : Machine C V} (hpassive : m.passive = true) (hgrounded : Grounded m.stack) :
    m.Rooted := by
  refine ⟨hgrounded, fun c hc => ?_, fun t ht => ?_⟩
  · simp [Machine.passive, hc] at hpassive
  · simp [Machine.passive, ht] at hpassive

theorem rooted_of_below {m : Machine C V} (hbelow : m.stack ≠ []) (hgrounded : Grounded m.stack) : m.Rooted :=
  ⟨hgrounded, fun _ _ => hbelow, fun _ _ => hbelow⟩

theorem request_rooted (E : Engine Empty C V) (heap : Heap Unit C V) (events : List String)
    {stack : List (Frame Empty C V)} (c : Comp Empty C V (Next C V)) (hgrounded : Grounded stack)
    (hbelow : stack ≠ []) :
    (request E heap events stack c).Rooted := by
  cases c with
  | done next => cases next <;> exact rooted_of_below hbelow hgrounded
  | force r k => exact rooted_of_passive rfl ⟨hbelow, hgrounded⟩
  | eval c k => exact rooted_of_below (List.cons_ne_nil _ _) ⟨hbelow, hgrounded⟩
  | normalize v k => exact rooted_of_passive rfl ⟨hbelow, hgrounded⟩
  | fork permit c k => cases permit
  | _ => exact rooted_of_below hbelow hgrounded

theorem conclude_rooted (E : Engine Empty C V) (heap : Heap Unit C V) (events : List String) (t : Outcome (Tail V))
    {stack : List (Frame Empty C V)} (hgrounded : Grounded stack) (hbelow : stack ≠ []) :
    (conclude E heap events t stack).Rooted := by
  cases stack with
  | nil => exact absurd rfl hbelow
  | cons frame stack =>
    cases t with
    | error e => cases frame <;> exact rooted_of_passive rfl hgrounded
    | ok t =>
      cases t with
      | value v => cases frame <;> exact rooted_of_passive rfl hgrounded
      | cell r =>
        cases frame with
        | resume k => exact rooted_of_passive rfl hgrounded
        | visit top work => exact rooted_of_passive rfl hgrounded
        | walk claimed =>
          rcases heap.claim_cases r with ⟨c, -, heq⟩ | ⟨o, heq, -⟩
          · simp only [conclude, heq]
            exact rooted_of_below (List.cons_ne_nil _ _) hgrounded
          · simp only [conclude, heq]
            exact rooted_of_passive rfl hgrounded

theorem deliver_rooted (E : Engine Empty C V) (heap : Heap Unit C V) (events : List String) (o : Outcome V)
    {stack : List (Frame Empty C V)} (hgrounded : Grounded stack) : (deliver E heap events o stack).Rooted := by
  cases stack with
  | nil => exact rooted_of_passive rfl hgrounded
  | cons frame stack =>
    cases frame with
    | walk claimed => exact rooted_of_passive rfl hgrounded
    | resume k => exact rooted_of_below hgrounded.1 hgrounded.2
    | visit top work => cases o <;> exact rooted_of_passive rfl hgrounded

theorem step_rooted (E : Engine Empty C V) {m : Machine C V} (hrooted : m.Rooted) : (m.step E).Rooted := by
  obtain ⟨heap, events, control, stack⟩ := m
  obtain ⟨hgrounded, hrunning, hended⟩ := hrooted
  cases control with
  | run c => exact request_rooted E heap events c hgrounded (hrunning c rfl)
  | ended t => exact conclude_rooted E heap events t hgrounded (hended t rfl)
  | give o => exact deliver_rooted E heap events o hgrounded
  | demand r =>
    rcases heap.claim_cases r with ⟨c, -, heq⟩ | ⟨o, heq, -⟩
    · simp only [step, heq]
      exact rooted_of_below (List.cons_ne_nil _ _) hgrounded
    · simp only [step, heq]
      exact rooted_of_passive rfl hgrounded
  | traverse top work => cases work <;> exact rooted_of_passive rfl hgrounded
  | unwind text =>
    cases stack with
    | nil => exact rooted_of_passive rfl hgrounded
    | cons frame stack =>
      cases frame with
      | resume k => exact rooted_of_passive rfl hgrounded.2
      | walk | visit => exact rooted_of_passive rfl hgrounded

def share (m : Machine C V) : Pool Empty C V := ⟨m.heap.share, m.events, #[⟨.act m.control, m.stack⟩]⟩

end Machine

namespace Pool

/-- a move that thread 0, the only one, makes without waiting -/
def LoneMove (E : Engine Empty C V) (p q : Pool Empty C V) : Prop :=
  p.threads.size = 1 ∧ p.ready 0 = true ∧ q = p.step E 0

/-- one or more such moves -/
abbrev Strides (E : Engine Empty C V) : Pool Empty C V → Pool Empty C V → Prop := Relation.TransGen (LoneMove E)

variable {E : Engine Empty C V} {heap : Heap ThreadId C V} {events : List String} {stack : List (Frame Empty C V)}

/-- a walk is published cell by cell, which comes to storing its outcome at once -/
theorem publish_strides (o : Outcome V) (rs : List Ref) :
    Strides E ⟨heap, events, #[⟨.publish o rs, stack⟩]⟩
      ⟨heap.settleAll o rs, events, #[⟨.act (.give o), stack⟩]⟩ := by
  induction rs generalizing heap with
  | nil => exact .single ⟨rfl, rfl, rfl⟩
  | cons r rs ih => exact .head ⟨rfl, rfl, rfl⟩ ih

theorem poison_strides (text : String) (rs : List Ref) :
    Strides E ⟨heap, events, #[⟨.poison text rs, stack⟩]⟩
      ⟨heap.settleAll (.error .poisoned) rs, events, #[⟨.act (.unwind text), stack⟩]⟩ := by
  induction rs generalizing heap with
  | nil => exact .single ⟨rfl, rfl, rfl⟩
  | cons r rs ih => exact .head ⟨rfl, rfl, rfl⟩ ih

end Pool

namespace Machine

open Pool

variable {E : Engine Empty C V} {m m' : Machine C V}

theorem ready_share (hgo : m.halted = false) : m.share.ready 0 = true := by
  obtain ⟨heap, events, control, stack⟩ := m
  have hunfinished : Thread.result? (⟨.act control, stack⟩ : Thread Empty C V) = none := by
    cases stack with
    | cons frame stack => cases control <;> rfl
    | nil =>
      cases control with
      | give | ended | unwind => cases hgo
      | run | demand | traverse => rfl
  have hmoves : Pool.waiting (share ⟨heap, events, control, stack⟩) 0 = false := by
    simp only [waiting, share, List.getElem?_toArray, List.getElem?_cons_zero]
    cases Thread.wanted? (⟨.act control, stack⟩ : Thread Empty C V) with
    | none => rfl
    | some r => exact heap.heldByOther_share r
  change ((Thread.result? ⟨.act control, stack⟩).isNone &&
    !Pool.waiting (share ⟨heap, events, control, stack⟩) 0) = true
  rw [hunfinished, hmoves]
  rfl

/-- one move is enough where nothing is published -/
theorem stride_of_step (hgo : m.halted = false) (hsame : m.share.step E 0 = (m.step E).share) :
    Strides E m.share (m.step E).share :=
  .single ⟨rfl, ready_share hgo, hsame.symm⟩

/-- a move that starts to publish, and the moves that do -/
theorem stride_publish (hgo : m.halted = false) {o : Outcome V} {rs : List Ref} {stack : List (Frame Empty C V)}
    (hfirst : m.share.step E 0 = ⟨m.heap.share, m.events, #[⟨.publish o rs.reverse, stack⟩]⟩)
    (hwhole : m.step E = ⟨m.heap.settleAll o rs, m.events, .give o, stack⟩) : Strides E m.share (m.step E).share := by
  refine .head ⟨rfl, ready_share hgo, hfirst.symm⟩ ?_
  rw [hwhole, share, Heap.share_settleAll, ← Heap.settleAll_reverse]
  exact publish_strides o rs.reverse

theorem request_share (heap : Heap Unit C V) (events : List String) (stack : List (Frame Empty C V))
    (c : Comp Empty C V (Next C V)) :
    (share ⟨heap, events, .run c, stack⟩).step E 0 = (request E heap events stack c).share := by
  cases c with
  | done next => cases next <;> rfl
  | peek r k =>
    have h : (share ⟨heap, events, .run (.peek r k), stack⟩).step E 0 =
        ⟨heap.share, events, #[⟨.act (.run (k (heap.share.status r))), stack⟩]⟩ := rfl
    rw [h, Heap.status_share]
    rfl
  | ready v k =>
    have h : (share ⟨heap, events, .run (.ready v k), stack⟩).step E 0 =
        ⟨heap.share.push (.value v), events, #[⟨.act (.run (k heap.share.size)), stack⟩]⟩ := rfl
    rw [h, Heap.size_share, request, share, Heap.share_push]
    rfl
  | delay c k =>
    have h : (share ⟨heap, events, .run (.delay c k), stack⟩).step E 0 =
        ⟨heap.share.push (.pending (c heap.share.size)), events, #[⟨.act (.run (k heap.share.size)), stack⟩]⟩ := rfl
    rw [h, Heap.size_share, request, share, Heap.share_push]
    rfl
  | fork permit c k => cases permit
  | _ => rfl

theorem conclude_strides (heap : Heap Unit C V) (events : List String) (t : Outcome (Tail V))
    {stack : List (Frame Empty C V)} (hbelow : stack ≠ []) :
    Strides E (share ⟨heap, events, .ended t, stack⟩) (conclude E heap events t stack).share := by
  match stack, t with
  | [], t => exact absurd rfl hbelow
  | .walk claimed :: stack, .error e =>
    exact stride_publish (m := ⟨heap, events, .ended (.error e), .walk claimed :: stack⟩) rfl rfl rfl
  | .walk claimed :: stack, .ok (.value v) =>
    exact stride_publish (m := ⟨heap, events, .ended (.ok (.value v)), .walk claimed :: stack⟩) rfl rfl rfl
  | .walk claimed :: stack, .ok (.cell r) =>
    have hclaim := heap.claimBy_share r
    rcases heap.claim_cases r with ⟨c, -, heq⟩ | ⟨o, heq, -⟩
    · refine stride_of_step (m := ⟨heap, events, .ended (.ok (.cell r)), .walk claimed :: stack⟩) rfl ?_
      rw [heq] at hclaim
      simp [Pool.step, share, Pool.conclude, hclaim, step, conclude, heq, putAct, put]
    · have hwhole : step E ⟨heap, events, .ended (.ok (.cell r)), .walk claimed :: stack⟩ =
          ⟨heap.settleAll o claimed, events, .give o, stack⟩ := by
        simp only [step, conclude, heq]
      refine stride_publish rfl ?_ hwhole
      rw [heq] at hclaim
      simp [Pool.step, share, Pool.conclude, hclaim, put]
  | .resume k :: stack, .error e => exact stride_of_step (m := ⟨heap, events, .ended _, _⟩) rfl rfl
  | .resume k :: stack, .ok t =>
    cases t <;> exact stride_of_step (m := ⟨heap, events, .ended _, _⟩) rfl rfl
  | .visit top work :: stack, .error e => exact stride_of_step (m := ⟨heap, events, .ended _, _⟩) rfl rfl
  | .visit top work :: stack, .ok t =>
    cases t <;> exact stride_of_step (m := ⟨heap, events, .ended _, _⟩) rfl rfl

theorem deliver_strides (heap : Heap Unit C V) (events : List String) (o : Outcome V)
    {stack : List (Frame Empty C V)} (hbelow : stack ≠ []) :
    Strides E (share ⟨heap, events, .give o, stack⟩) (deliver E heap events o stack).share := by
  match stack, o with
  | [], o => exact absurd rfl hbelow
  | .walk claimed :: stack, o =>
    exact stride_publish (m := ⟨heap, events, .give o, .walk claimed :: stack⟩) rfl rfl rfl
  | .resume k :: stack, o => exact stride_of_step (m := ⟨heap, events, .give _, _⟩) rfl rfl
  | .visit top work :: stack, .ok v => exact stride_of_step (m := ⟨heap, events, .give _, _⟩) rfl rfl
  | .visit top work :: stack, .error e => exact stride_of_step (m := ⟨heap, events, .give _, _⟩) rfl rfl

/-- **One step of the evaluator is one or more moves of the thread**, none of which has to wait. -/
theorem step_share (E : Engine Empty C V) (hrooted : m.Rooted) (hgo : m.halted = false) :
    Strides E m.share (m.step E).share := by
  obtain ⟨heap, events, control, stack⟩ := m
  have hunhalted : ∀ o, control = .give o → stack ≠ [] := by
    rintro o rfl rfl
    cases hgo
  cases control with
  | run c => exact stride_of_step hgo (request_share heap events stack c)
  | ended t => exact conclude_strides heap events t (hrooted.ended t rfl)
  | give o => exact deliver_strides heap events o (hunhalted o rfl)
  | demand r =>
    refine stride_of_step hgo ?_
    have hclaim := heap.claimBy_share r
    rcases heap.claim_cases r with ⟨c, -, heq⟩ | ⟨o, heq, -⟩
    · rw [heq] at hclaim
      simp [Pool.step, share, Pool.demand, hclaim, step, heq, putAct, put]
    · rw [heq] at hclaim
      simp [Pool.step, share, Pool.demand, hclaim, step, heq, putAct, put]
  | traverse top work => cases work <;> exact stride_of_step hgo rfl
  | unwind text =>
    cases stack with
    | nil => cases hgo
    | cons frame stack =>
      have hlast : (step E ⟨heap, events, .unwind text, frame :: stack⟩).share =
          ⟨heap.share.settleAll (.error .poisoned) frame.claimed.reverse, events,
            #[⟨.act (.unwind text), stack⟩]⟩ := by
        rw [Heap.settleAll_reverse, ← Heap.share_settleAll]
        rfl
      rw [hlast]
      exact .head ⟨rfl, ready_share hgo, rfl⟩ (poison_strides text frame.claimed.reverse)

end Machine

/-! ## Runs -/

namespace Pool

variable {E : Engine Empty C V} {p q : Pool Empty C V}

theorem run_of_move (hmove : LoneMove E p q) (n : Nat) : Pool.run E (n + 1) p = Pool.run E n q := by
  obtain ⟨hsingle, hready, rfl⟩ := hmove
  simp [Pool.run, next?, hsingle, List.range_succ, hready]

/-- moves use up steps -/
theorem run_of_strides (hstrides : Strides E p q) : ∃ k, ∀ n, Pool.run E (n + k + 1) p = Pool.run E n q := by
  induction hstrides with
  | single hmove => exact ⟨0, fun n => run_of_move hmove n⟩
  | tail hbefore hmove ih =>
    obtain ⟨k, hk⟩ := ih
    refine ⟨k + 1, fun n => ?_⟩
    rw [← run_of_move hmove n, ← hk (n + 1)]
    congr 1
    omega

/-- more steps do not change where the moves end -/
theorem run_mono {n k : Nat} (hnk : n ≤ k) (hrun : Pool.run E n p = some q) : Pool.run E k p = some q := by
  induction n generalizing p k with
  | zero => cases hrun
  | succ n ih =>
    obtain ⟨k, rfl⟩ := Nat.exists_eq_add_of_le' (Nat.le_of_add_left_le hnk)
    simp only [Pool.run] at hrun ⊢
    cases hnext : p.next? with
    | none => rw [hnext] at hrun; exact hrun
    | some t =>
      rw [hnext] at hrun
      exact ih (by omega) hrun

end Pool

namespace Machine

open Pool

variable {E : Engine Empty C V} {m m' : Machine C V}

/-- where the evaluator has nothing left to do, the thread has its result -/
theorem result_of_halted (hrooted : m.Rooted) (hhalt : m.halted = true) :
    (∃ o, m.control = .give o ∧ m.share.result? 0 = some (.ok o)) ∨
      ∃ text, m.control = .unwind text ∧ m.share.result? 0 = some (.error text) := by
  obtain ⟨heap, events, control, stack⟩ := m
  cases stack with
  | cons frame stack => cases control <;> cases hhalt
  | nil =>
    cases control with
    | give o => exact .inl ⟨o, rfl, rfl⟩
    | unwind text => exact .inr ⟨text, rfl, rfl⟩
    | ended t => exact absurd rfl (hrooted.ended t rfl)
    | run | demand | traverse => cases hhalt

theorem run_share_of_halted (hrooted : m.Rooted) (hhalt : m.halted = true) (n : Nat) :
    Pool.run E (n + 1) m.share = some m.share := by
  have hstays : m.share.ready 0 = false := by
    rcases result_of_halted hrooted hhalt with ⟨o, -, hres⟩ | ⟨text, -, hres⟩
    · have h : Thread.result? (⟨.act m.control, m.stack⟩ : Thread Empty C V) = some (.ok o) := hres
      simp [ready, share, h]
    · have h : Thread.result? (⟨.act m.control, m.stack⟩ : Thread Empty C V) = some (.error text) := hres
      simp [ready, share, h]
  have hsingle : m.share.threads.size = 1 := rfl
  simp [Pool.run, next?, hsingle, List.range_succ, hstays]

/-- **If the evaluator comes to a halt, so does the thread**, in the same state. -/
theorem run_share {n : Nat} (hrooted : m.Rooted) (hrun : Machine.run E n m = some m') :
    m'.Rooted ∧ m'.halted = true ∧ ∃ k, Pool.run E k m.share = some m'.share := by
  induction n generalizing m with
  | zero => cases hrun
  | succ n ih =>
    simp only [Machine.run] at hrun
    split_ifs at hrun with hhalt
    · cases hrun
      exact ⟨hrooted, hhalt, 1, run_share_of_halted hrooted hhalt 0⟩
    · obtain ⟨hrooted', hhalt', k, hk⟩ := ih (step_rooted E hrooted) hrun
      obtain ⟨j, hj⟩ := run_of_strides (step_share E hrooted (Bool.eq_false_iff.2 hhalt))
      exact ⟨hrooted', hhalt', k + j + 1, (hj k).trans hk⟩

/-- **If the thread comes to a halt, so does the evaluator**, in at most as many steps. -/
theorem run_of_share {n : Nat} {p : Pool Empty C V} (hrooted : m.Rooted) (hrun : Pool.run E n m.share = some p) :
    ∃ m', Machine.run E n m = some m' := by
  induction n using Nat.strongRecOn generalizing m with
  | ind n ih =>
    cases n with
    | zero => cases hrun
    | succ n =>
      by_cases hhalt : m.halted = true
      · exact ⟨m, by simp [Machine.run, hhalt]⟩
      · obtain ⟨j, hj⟩ := run_of_strides (step_share E hrooted (Bool.eq_false_iff.2 hhalt))
        -- the moves of this step are done first, with what is left the thread still halts
        have hlater : Pool.run E (n - j) (m.step E).share = some p := by
          rw [← hj]
          exact Pool.run_mono (by omega) hrun
        obtain ⟨m', hm'⟩ := ih (n - j) (by omega) (step_rooted E hrooted) hlater
        refine ⟨m', ?_⟩
        simp only [Machine.run, hhalt]
        exact run_mono (Nat.sub_le n j) hm'

end Machine

/-! ## Calls from outside -/

/-- what a caller may ask of a cell -/
inductive Inquiry where
  /-- its value -/
  | shallow (r : Ref)
  /-- its value with everything reachable from it -/
  | deep (r : Ref)
  /-- whether it has no outcome yet -/
  | pending (r : Ref)
deriving DecidableEq, Repr

inductive Response (V : Type) where
  | outcome (o : Outcome V)
  | aborted (text : String)
  | pending (b : Bool)
deriving Repr

/-- errors and aborts are answers; not to have come to an end is none -/
def responded {σ : Type} (x : EStateM Stop σ V) : EStateM Stop σ (Response V) := fun s =>
  match x s with
  | .ok v s => .ok (.outcome (.ok v)) s
  | .error (.failed e) s => .ok (.outcome (.error e)) s
  | .error (.aborted text) s => .ok (.aborted text) s
  | .error .exhausted s => .error .exhausted s

/-- the answer to an inquiry, over cells of one thread -/
def Host.respond (E : Engine Empty C V) : Inquiry → Host W C V (Response V)
  | .shallow r => responded (force E r)
  | .deep r => responded (forceDeep E r)
  | .pending r => do return .pending (← status r).isPending

/-- the answer to an inquiry, over shared cells -/
def Shared.Host.respond (E : Engine Empty C V) : Inquiry → Shared.Host W C V (Response V)
  | .shallow r => responded (force E r)
  | .deep r => responded (forceDeep E r)
  | .pending r => do return .pending (← status r).isPending

/-- the answers to inquiries made one after another, each with the session it leaves; none if one of them does not end -/
def transcript {σ : Type} (respond : Inquiry → EStateM Stop σ (Response V)) :
    List Inquiry → σ → Option (List (Response V × σ))
  | [], _ => some []
  | q :: qs, s =>
    match respond q s with
    | .ok a s => (transcript respond qs s).map ((a, s) :: ·)
    | .error _ _ => none

/-- the same session with its cells shared -/
def Session.share (s : Session W C V) : Shared.Session W C V := ⟨s.heap.share, s.events, s.world⟩

/-- the same end of a procedure, with the cells shared -/
def shareResult {α : Type} :
    EStateM.Result Stop (Session W C V) α → EStateM.Result Stop (Shared.Session W C V) α
  | .ok a s => .ok a s.share
  | .error stop s => .error stop s.share

/-- two procedures, by the number of steps they are allowed, end the same way if allowed enough -/
def Alike {α : Type} (x : Nat → Host W C V α) (y : Nat → Shared.Host W C V α) : Prop :=
  ∀ s : Session W C V, ∃ result steps, ∀ n ≥ steps, x n s = result ∧ y n s.share = shareResult result

namespace Alike

variable {α β : Type} {x : Nat → Host W C V α} {y : Nat → Shared.Host W C V α}

theorem pure (a : α) : Alike (fun _ => (Pure.pure a : Host W C V α)) fun _ => Pure.pure a :=
  fun s => ⟨.ok a s, 0, fun _ _ => ⟨rfl, rfl⟩⟩

theorem throw (stop : Stop) : Alike (α := α) (W := W) (C := C) (V := V) (fun _ => MonadExcept.throw stop) fun _ =>
    MonadExcept.throw stop :=
  fun s => ⟨.error stop s, 0, fun _ _ => ⟨rfl, rfl⟩⟩

theorem bind {f : Nat → α → Host W C V β} {g : Nat → α → Shared.Host W C V β} (hfirst : Alike x y)
    (hrest : ∀ a, Alike (fun n => f n a) fun n => g n a) : Alike (fun n => x n >>= f n) fun n => y n >>= g n := by
  intro s
  obtain ⟨result, steps, h⟩ := hfirst s
  cases result with
  | ok a t =>
    obtain ⟨result', steps', h'⟩ := hrest a t
    refine ⟨result', max steps steps', fun n hn => ?_⟩
    obtain ⟨hx, hy⟩ := h n (le_of_max_le_left hn)
    obtain ⟨hf, hg⟩ := h' n (le_of_max_le_right hn)
    simp only [Bind.bind, EStateM.bind, hx, hy, shareResult]
    exact ⟨hf, hg⟩
  | error stop t =>
    refine ⟨.error stop t, steps, fun n hn => ?_⟩
    obtain ⟨hx, hy⟩ := h n hn
    simp [Bind.bind, EStateM.bind, hx, hy, shareResult]

theorem responded {x : Nat → Host W C V V} {y : Nat → Shared.Host W C V V} (halike : Alike x y) :
    Alike (fun n => ByNeed.responded (x n)) fun n => ByNeed.responded (y n) := by
  intro s
  obtain ⟨result, steps, h⟩ := halike s
  have hends : ∃ result', ∀ n ≥ steps, ByNeed.responded (x n) s = result' ∧
      ByNeed.responded (y n) s.share = shareResult result' := by
    cases result with
    | ok v t =>
      refine ⟨.ok (.outcome (.ok v)) t, fun n hn => ?_⟩
      simp [ByNeed.responded, h n hn, shareResult]
    | error stop t =>
      cases stop with
      | failed e =>
        refine ⟨.ok (.outcome (.error e)) t, fun n hn => ?_⟩
        simp [ByNeed.responded, h n hn, shareResult]
      | aborted text =>
        refine ⟨.ok (.aborted text) t, fun n hn => ?_⟩
        simp [ByNeed.responded, h n hn, shareResult]
      | exhausted =>
        refine ⟨.error .exhausted t, fun n hn => ?_⟩
        simp [ByNeed.responded, h n hn, shareResult]
  obtain ⟨result', h'⟩ := hends
  exact ⟨result', steps, h'⟩

end Alike

theorem Pool.run_fuel {T : Type} (E : Engine T C V) (fuel n : Nat) (p : Pool T C V) :
    Pool.run { E with fuel := fuel } n p = Pool.run E n p := by
  induction n generalizing p with
  | zero => rfl
  | succ n ih =>
    have hstep : ∀ t, p.step { E with fuel := fuel } t = p.step E t := fun _ => rfl
    simp only [Pool.run, hstep, ih]

namespace Machine

/-- nothing is on the stack yet, and the evaluator is about to demand a cell or the parts of a value -/
theorem rooted_start (heap : Heap Unit C V) (events : List String) {control : Control Empty C V}
    (hstart : (∃ r, control = .demand r) ∨ ∃ top work, control = .traverse top work) :
    Rooted ⟨heap, events, control, []⟩ := by
  rcases hstart with ⟨r, rfl⟩ | ⟨top, work, rfl⟩
  · exact rooted_of_passive rfl trivial
  · exact rooted_of_passive rfl trivial

end Machine

namespace Shared.Host

variable {E : Engine Empty C V}

/-- what a single thread hands out at its end -/
theorem single_of_run {s : Shared.Session W C V} {control : Control Empty C V} {p : Pool Empty C V}
    (hrun : Pool.run E E.fuel ⟨s.heap, s.events, #[⟨.act control, []⟩]⟩ = some p)
    {x : Except String (Outcome V)} (hresult : p.result? 0 = some x) :
    single E ⟨.act control, []⟩ s =
      match x with
      | .ok o => .ok o ⟨p.heap, p.events, s.world⟩
      | .error text => .error (.aborted text) ⟨p.heap, p.events, s.world⟩ := by
  have hgathered : gather E [⟨.act control, []⟩] s = .ok [x] ⟨p.heap, p.events, s.world⟩ := by
    simp [gather, hrun, List.range_succ, resultOf, hresult, Pure.pure, Except.pure, Bind.bind, Except.bind]
  cases x with
  | ok o => simp [single, Bind.bind, EStateM.bind, hgathered, Pure.pure, EStateM.pure]
  | error text =>
    simp only [single, Bind.bind, EStateM.bind, hgathered]
    rfl

theorem single_of_none {s : Shared.Session W C V} {control : Control Empty C V}
    (hrun : Pool.run E E.fuel ⟨s.heap, s.events, #[⟨.act control, []⟩]⟩ = none) :
    single E ⟨.act control, []⟩ s = .error .exhausted ⟨#[], [], s.world⟩ := by
  simp [single, gather, hrun, Bind.bind, EStateM.bind]

end Shared.Host

namespace Host

open Machine

/-- **Driving the evaluator and driving a single thread** end the same way. -/
theorem drive_alike (E : Engine Empty C V) {control : Control Empty C V}
    (hstart : (∃ r, control = .demand r) ∨ ∃ top work, control = .traverse top work) :
    Alike (W := W) (fun n => drive { E with fuel := n } control outcomeOf) fun n =>
      Shared.Host.single { E with fuel := n } ⟨.act control, []⟩ := by
  rintro ⟨heap, events, world⟩
  have hrooted := rooted_start heap events hstart
  by_cases hends : ∃ n m, Machine.run E n ⟨heap, events, control, []⟩ = some m
  · obtain ⟨n, m, hrun⟩ := hends
    obtain ⟨hrooted', hhalt, k, hruns⟩ := run_share hrooted hrun
    have henough : ∀ l ≥ max n k, Machine.run { E with fuel := l } l ⟨heap, events, control, []⟩ = some m ∧
        Pool.run { E with fuel := l } l (share ⟨heap, events, control, []⟩) = some m.share := by
      intro l hl
      rw [run_fuel, Pool.run_fuel]
      exact ⟨run_mono (le_of_max_le_left hl) hrun, Pool.run_mono (le_of_max_le_right hl) hruns⟩
    rcases result_of_halted hrooted' hhalt with ⟨o, hc, hresult⟩ | ⟨text, hc, hresult⟩
    · refine ⟨.ok o ⟨m.heap, m.events, world⟩, max n k, fun l hl => ⟨?_, ?_⟩⟩
      · simp [drive, (henough l hl).1, hc, outcomeOf]
      · exact Shared.Host.single_of_run (henough l hl).2 hresult
    · refine ⟨.error (.aborted text) ⟨m.heap, m.events, world⟩, max n k, fun l hl => ⟨?_, ?_⟩⟩
      · simp [drive, (henough l hl).1, hc, outcomeOf]
      · exact Shared.Host.single_of_run (henough l hl).2 hresult
  · -- neither ends, so that both run out whatever they are given
    have hnever : ∀ n, Machine.run E n ⟨heap, events, control, []⟩ = none := by
      intro n
      by_contra hsome
      exact hends ⟨n, Option.ne_none_iff_exists'.1 hsome⟩
    have hnever' : ∀ n, Pool.run E n (share ⟨heap, events, control, []⟩) = none := by
      intro n
      by_contra hsome
      obtain ⟨p, hp⟩ := Option.ne_none_iff_exists'.1 hsome
      exact hends ⟨n, run_of_share hrooted hp⟩
    refine ⟨.error .exhausted ⟨#[], [], world⟩, 0, fun n _ => ⟨?_, ?_⟩⟩
    · simp [drive, run_fuel, hnever n]
    · have hnone : Pool.run { E with fuel := n } n (share ⟨heap, events, control, []⟩) = none := by
        rw [Pool.run_fuel, hnever' n]
      exact @Shared.Host.single_of_none W C V { E with fuel := n } ⟨heap.share, events, world⟩ control hnone

theorem ofOutcome_alike (o : Outcome V) : Alike (W := W) (C := C) (V := V) (fun _ => ofOutcome o) fun _ =>
    Shared.Host.ofOutcome o := by
  cases o with
  | ok v => exact .pure v
  | error e => exact .throw _

theorem force_alike (E : Engine Empty C V) (r : Ref) :
    Alike (W := W) (fun n => force { E with fuel := n } r) fun n => Shared.Host.force { E with fuel := n } r :=
  .bind (drive_alike E (.inl ⟨r, rfl⟩)) ofOutcome_alike

theorem forceDeep_alike (E : Engine Empty C V) (r : Ref) :
    Alike (W := W) (fun n => forceDeep { E with fuel := n } r) fun n =>
      Shared.Host.forceDeep { E with fuel := n } r :=
  .bind (force_alike E r) fun v => .bind (drive_alike E (.inr ⟨v, E.parts v, rfl⟩)) ofOutcome_alike

theorem respond_alike (E : Engine Empty C V) (q : Inquiry) :
    Alike (W := W) (fun n => respond { E with fuel := n } q) fun n => Shared.Host.respond { E with fuel := n } q := by
  cases q with
  | shallow r => exact (force_alike E r).responded
  | deep r => exact (forceDeep_alike E r).responded
  | pending r =>
    intro s
    refine ⟨.ok (.pending (s.heap.status r).isPending) s, 0, fun n _ => ⟨rfl, ?_⟩⟩
    have h : (s.share.heap.status r) = s.heap.status r := s.heap.status_share r
    rw [shareResult, ← h]
    rfl

end Host

namespace Pool

/-- no claimed cell belongs to anyone but thread 0 -/
def Unrivalled (p : Pool Empty C V) : Prop :=
  ∀ (r : Ref) (owner : ThreadId), p.heap[r]? = some (.busy owner) → owner = 0

theorem Unrivalled.step {p : Pool Empty C V} (hown : p.Unrivalled) (E : Engine Empty C V) :
    (p.step E 0).Unrivalled := by
  intro r owner hbusy
  rcases (step_acts E p 0).effect.busy_cases hbusy with ⟨hbefore, -⟩ | ⟨rfl, -⟩
  · exact hown r owner hbefore
  · rfl

theorem Unrivalled.claimBy {p : Pool Empty C V} (hown : p.Unrivalled) (r : Ref) : (p.heap.claimBy 0 r).1 ≠ none := by
  rcases p.heap.claimBy_cases 0 r with ⟨c, -, heq⟩ | ⟨owner, hbusy, hother, -⟩ | ⟨o, heq, -⟩
  · rw [heq]; exact Option.some_ne_none _
  · exact absurd (hown r owner hbusy) hother
  · rw [heq]; exact Option.some_ne_none _

end Pool

/-- **Cells of one thread and shared cells are interchangeable on one thread.** Take any cells, once on their own and
once shared, and any sequence of inquiries made by one thread. If enough steps are allowed, both get the same answers in
the same order, and after each of them the events and the cells are the same, a claimed cell being one of that thread;
or neither comes to an end. On the way no claim of the thread ever has to wait. -/
theorem calls_agree (E : Engine Empty C V) (qs : List Inquiry) (s : Session W C V) :
    (∃ log steps, ∀ n ≥ steps, transcript (Host.respond { E with fuel := n }) qs s = log ∧
      transcript (Shared.Host.respond { E with fuel := n }) qs s.share =
        log.map (List.map fun (a, t) => (a, t.share))) ∧
    ∀ (t : Session W C V) (control : Control Empty C V) (p : Pool Empty C V),
      Relation.ReflTransGen (fun p q => q = p.step E 0) ⟨t.share.heap, t.share.events, #[⟨.act control, []⟩]⟩ p →
      ∀ r, (p.heap.claimBy 0 r).1 ≠ none := by
  refine ⟨?_, fun t control p hmoves r => ?_⟩
  · induction qs generalizing s with
    | nil => exact ⟨some [], 0, fun n _ => ⟨rfl, rfl⟩⟩
    | cons q qs ih =>
      obtain ⟨result, steps, hfirst⟩ := Host.respond_alike E q s
      cases result with
      | ok a t =>
        obtain ⟨log, steps', hrest⟩ := ih t
        refine ⟨log.map ((a, t) :: ·), max steps steps', fun n hn => ?_⟩
        obtain ⟨hx, hy⟩ := hfirst n (le_of_max_le_left hn)
        obtain ⟨hlog, hlog'⟩ := hrest n (le_of_max_le_right hn)
        rw [shareResult] at hy
        simp only [transcript, hx, hy, hlog, hlog']
        cases log <;> simp
      | error stop t =>
        refine ⟨none, steps, fun n hn => ?_⟩
        obtain ⟨hx, hy⟩ := hfirst n hn
        rw [shareResult] at hy
        simp [transcript, hx, hy]
  · -- a claim waits only for another owner, and all owners here are the one thread
    have hown : p.Unrivalled := by
      induction hmoves with
      | refl =>
        intro i owner hbusy
        rw [Session.share, Heap.getElem?_share] at hbusy
        obtain ⟨x, -, hx⟩ := Option.map_eq_some_iff.1 hbusy
        exact x.owner_of_share hx
      | tail _ hmove ih =>
        rw [hmove]
        exact ih.step E
    exact hown.claimBy r

/-- five cells: 0 forces itself, reports that this failed and goes on with 1, which comes to 4, whose part is 2; 2 forces 3,
which is cut off -/
def snare : Engine Empty Nat Nat where
  body
    | 0 => .force 0 fun _ => .emit "caught" fun _ => .done (.cell 1)
    | 1 => .done (.value 4)
    | 2 => .force 3 fun _ => .done (.value 0)
    | 3 => .emit "cut" fun _ => .abort "boom"
    | _ => .fail (.user "unused")
  parts v := if v = 4 then [2] else []
  fuel := 0

/-- the walk from 0, the abort below the deep force and the poisoned cells are the same among shared cells -/
theorem calls_agree_snare :
    let s : Session Unit Nat Nat := ⟨#[.pending 0, .pending 1, .pending 2, .pending 3, .pending 4], [], ()⟩
    ∃ steps, ∀ n ≥ steps, transcript (Shared.Host.respond { snare with fuel := n })
        [.shallow 0, .deep 1, .pending 3, .shallow 2, .pending 4] s.share = some [
      (.outcome (.ok 4), ⟨#[.value 4, .value 4, .pending 2, .pending 3, .pending 4], ["caught"], ()⟩),
      (.aborted "boom",
        ⟨#[.value 4, .value 4, .failed .poisoned, .failed .poisoned, .pending 4], ["cut", "caught"], ()⟩),
      (.pending false,
        ⟨#[.value 4, .value 4, .failed .poisoned, .failed .poisoned, .pending 4], ["cut", "caught"], ()⟩),
      (.outcome (.error .poisoned),
        ⟨#[.value 4, .value 4, .failed .poisoned, .failed .poisoned, .pending 4], ["cut", "caught"], ()⟩),
      (.pending true,
        ⟨#[.value 4, .value 4, .failed .poisoned, .failed .poisoned, .pending 4], ["cut", "caught"], ()⟩)] := by
  intro s
  obtain ⟨⟨log, steps, hboth⟩, -⟩ :=
    calls_agree snare [.shallow 0, .deep 1, .pending 3, .shallow 2, .pending 4] s
  refine ⟨max steps 40, fun n hn => ?_⟩
  obtain ⟨hlog, hlog'⟩ := hboth n (le_of_max_le_left hn)
  obtain ⟨k, rfl⟩ := Nat.exists_eq_add_of_le' (le_of_max_le_right hn)
  rw [hlog', ← hlog]
  rfl

end ByNeed
