/-
Actions in sequence.

Actions are joined by `andThen`, to the left or to the right and in any mixture of both. However they are nested, what
is joined is a list: a first action, and steps that each make the next action from the result before, or fail instead.
- `Nesting.run_next`, `Joined.run_action`: an action that is put together runs the steps of its list, one after another.
- `Runs.of_attempt`: they run up to the first failure, and none after it.
- `joined_steps_run_in_order`: what is captured of a program of joined actions, what it asks for, and what it reports.
-/
import ByNeed.Proofs.Io.Captured

namespace ByNeed

variable {σ μ C V P W : Type}

/-! ## Nested actions -/

/-- makes the next action from a result, or fails instead -/
abbrev Sequel (P : Type) := Ref → Outcome (Action P)

/-- steps that are joined in some nesting -/
inductive Nesting (P : Type) where
  | step (k : Sequel P)
  | join (first rest : Nesting P)

namespace Nesting

/-- the steps in order -/
def steps : Nesting P → List (Sequel P)
  | step k => [k]
  | join first rest => first.steps ++ rest.steps

/-- nested steps as one: the later ones follow within what the earlier ones make -/
def next : Nesting P → Sequel P
  | step k => k
  | join first rest => fun r => (first.next r).map fun a => a.andThen rest.next

end Nesting

/-- an action that is followed by nested steps, again and again -/
inductive Joined (P : Type) where
  | start (a : Action P)
  | andThen (before : Joined P) (rest : Nesting P)

namespace Joined

def first : Joined P → Action P
  | start a => a
  | andThen before _ => before.first

/-- the steps after the first action, in order -/
def steps : Joined P → List (Sequel P)
  | start _ => []
  | andThen before rest => before.steps ++ rest.steps

/-- the action as it is put together -/
def action : Joined P → Action P
  | start a => a
  | andThen before rest => before.action.andThen rest.next

end Joined

/-! ## Nesting makes no difference -/

def Sequel.run (perform : P → Host W C V Ref) (k : Sequel P) (r : Ref) : Host W C V Ref := do
  let a ← Host.ofOutcome (k r)
  a.run perform

theorem Action.run_andThen (perform : P → Host W C V Ref) (a : Action P) (k : Sequel P) :
    (a.andThen k).run perform = a.run perform >>= Sequel.run perform k := by
  simp only [Action.andThen, Action.run]
  congr 1
  funext r
  rw [Sequel.run]
  cases k r <;> rfl

/-- nested steps run one after another -/
theorem Nesting.run_next (perform : P → Host W C V Ref) (n : Nesting P) (r : Ref) :
    Sequel.run perform n.next r = n.steps.foldlM (fun r k => Sequel.run perform k r) r := by
  induction n generalizing r with
  | step k => simp [Nesting.next, Nesting.steps]
  | join first rest ihFirst ihRest =>
    have hlater : Sequel.run perform rest.next = fun r => rest.steps.foldlM (fun r k => Sequel.run perform k r) r :=
      funext ihRest
    rw [Nesting.steps, List.foldlM_append, ← ihFirst, ← hlater, Sequel.run, Sequel.run]
    dsimp only [Nesting.next]
    cases first.next r with
    | error e => rfl
    | ok a => exact a.run_andThen perform rest.next

/-- **However actions are nested**, the first one runs, and then the steps, one after another. -/
theorem Joined.run_action (perform : P → Host W C V Ref) (j : Joined P) :
    j.action.run perform = j.first.run perform >>= fun r => j.steps.foldlM (fun r k => Sequel.run perform k r) r := by
  induction j with
  | start a => exact (bind_pure _).symm
  | andThen before rest ih =>
    have hlater : Sequel.run perform rest.next = fun r => rest.steps.foldlM (fun r k => Sequel.run perform k r) r :=
      funext (rest.run_next perform)
    rw [Joined.action, Action.run_andThen, ih, hlater, bind_assoc]
    simp only [Joined.first, Joined.steps, List.foldlM_append]

/-- what an action does to its context, it does by acts if its primitive steps do -/
theorem Action.run_acts [Device (σ × μ)] {perform : P → Host (Context σ μ) C V Ref}
    (hacts : ∀ p, Host.Acts (perform p)) (a : Action P) : Host.Acts (a.run perform) := by
  induction a with
  | pure r => exact Host.acts_of_world fun s => rfl
  | fail e => exact Host.acts_of_world fun s => rfl
  | primitive p => exact hacts p
  | bind first next ihFirst ihNext => exact ihFirst.bind ihNext

/-! ## Up to the first failure -/

variable [Device (σ × μ)]

/-- The next action runs, and then the steps, with what each of them does to the context. What comes of them is the first
failure, of an action or of a step that makes none, or else the result of the last action. -/
inductive Runs (perform : P → Host (Context σ μ) C V Ref) : Outcome (Action P) → List (Sequel P) →
    Session (Context σ μ) C V → List (List Act) → Outcome Ref → Session (Context σ μ) C V → Prop where
  | noAction {e : EvalError} {steps : List (Sequel P)} {s : Session (Context σ μ) C V} :
      Runs perform (.error e) steps s [] (.error e) s
  | fails {a : Action P} {steps : List (Sequel P)} {e : EvalError} {acts : List Act} {s s' : Session (Context σ μ) C V}
      (hrun : a.run perform s = .error (.failed e) s') (hworld : s'.world = s.world.after acts) :
      Runs perform (.ok a) steps s [acts] (.error e) s'
  | last {a : Action P} {r : Ref} {acts : List Act} {s s' : Session (Context σ μ) C V}
      (hrun : a.run perform s = .ok r s') (hworld : s'.world = s.world.after acts) :
      Runs perform (.ok a) [] s [acts] (.ok r) s'
  | next {a : Action P} {r : Ref} {k : Sequel P} {steps : List (Sequel P)} {acts : List Act} {log : List (List Act)}
      {o : Outcome Ref} {s s₁ s' : Session (Context σ μ) C V} (hrun : a.run perform s = .ok r s₁)
      (hworld : s₁.world = s.world.after acts) (hrest : Runs perform (k r) steps s₁ log o s') :
      Runs perform (.ok a) (k :: steps) s (acts :: log) o s'

namespace Runs

variable {perform : P → Host (Context σ μ) C V Ref} {first : Outcome (Action P)} {steps : List (Sequel P)}
  {s s' : Session (Context σ μ) C V} {log : List (List Act)} {o : Outcome Ref}

/-- the context has seen the acts of the steps that ran, and no others -/
theorem world (hruns : Runs perform first steps s log o s') : s'.world = s.world.after log.flatten := by
  induction hruns with
  | noAction => rfl
  | fails hrun hworld => rw [hworld, List.flatten_singleton]
  | last hrun hworld => rw [hworld, List.flatten_singleton]
  | next hrun hworld hrest ih => rw [ih, hworld, List.flatten_cons, Context.after_append]

/-- what is left to run: the next action, and then the steps -/
def remaining (perform : P → Host W C V Ref) (first : Outcome (Action P)) (steps : List (Sequel P)) :
    Host W C V Ref := do
  let a ← Host.ofOutcome first
  let r ← a.run perform
  steps.foldlM (fun r k => Sequel.run perform k r) r

omit [Device (σ × μ)] in
/-- after an action, the next step makes another one -/
theorem remaining_cons {a : Action P} {r : Ref} {k : Sequel P} {s₁ : Session (Context σ μ) C V}
    (hrun : a.run perform s = .ok r s₁) :
    remaining perform (.ok a) (k :: steps) s = remaining perform (k r) steps s₁ := by
  refine (bind_ok rfl).trans ((bind_ok hrun).trans ?_)
  rw [List.foldlM_cons, Sequel.run, bind_assoc]
  rfl

theorem attempt_remaining (hruns : Runs perform first steps s log o s') :
    Host.attempt (remaining perform first steps) s = .ok o s' := by
  induction hruns with
  | noAction => rfl
  | fails hrun hworld => exact Host.attempt_failed ((bind_ok rfl).trans (bind_error hrun))
  | last hrun hworld => exact Host.attempt_ok ((bind_ok rfl).trans (bind_ok hrun))
  | next hrun hworld hrest ih =>
    rw [Host.attempt, remaining_cons hrun]
    exact ih

/-- the steps end with a failure at once, or their first action has run -/
theorem remaining_cases (hacts : ∀ p, Host.Acts (perform p))
    (hended : Host.attempt (remaining perform first steps) s = .ok o s') :
    (∃ log, Runs perform first steps s log o s') ∨ ∃ a r done s₁, first = .ok a ∧ a.run perform s = .ok r s₁ ∧
      s₁.world = s.world.after done := by
  cases first with
  | error e =>
    cases hended
    exact .inl ⟨[], .noAction⟩
  | ok a =>
    obtain ⟨done, hworld⟩ := a.run_acts hacts s
    cases hrun : a.run perform s with
    | error stop s₁ =>
      obtain ⟨e, rfl, rfl, rfl⟩ := Host.attempt_error ((bind_ok rfl).trans (bind_error hrun)) hended
      rw [hrun] at hworld
      exact .inl ⟨[done], .fails hrun hworld⟩
    | ok r s₁ =>
      rw [hrun] at hworld
      exact .inr ⟨a, r, done, s₁, rfl, hrun, hworld⟩

/-- **Steps run up to the first failure**, and whatever ends has run in this way. -/
theorem of_attempt (hacts : ∀ p, Host.Acts (perform p))
    (hended : Host.attempt (remaining perform first steps) s = .ok o s') :
    ∃ log, Runs perform first steps s log o s' := by
  induction steps generalizing first s with
  | nil =>
    rcases remaining_cases hacts hended with hruns | ⟨a, r, done, s₁, rfl, hrun, hworld⟩
    · exact hruns
    · have hends : remaining perform (.ok a) [] s = .ok r s₁ := (bind_ok rfl).trans (bind_ok hrun)
      rw [Host.attempt_ok hends] at hended
      cases hended
      exact ⟨[done], .last hrun hworld⟩
  | cons k steps ih =>
    rcases remaining_cases hacts hended with hruns | ⟨a, r, done, s₁, rfl, hrun, hworld⟩
    · exact hruns
    · rw [Host.attempt, remaining_cons hrun] at hended
      obtain ⟨log, hrest⟩ := ih hended
      exact ⟨done :: log, .next hrun hworld hrest⟩

end Runs

/-! ## Scripts -/

namespace Script

theorem Effect.perform_acts (e : Effect) : Host.Acts (e.perform : Host (Context σ μ) Code Value Unit) := by
  cases e with
  | out s => exact Host.io_acts (.ask .stdout (.write s)) fun _ => rfl
  | outLine s => exact Host.io_acts (.ask .stdout (.writeLine s)) fun _ => rfl
  | err s => exact Host.io_acts (.ask .stderr (.write s)) fun _ => rfl
  | errLine s => exact Host.io_acts (.ask .stderr (.writeLine s)) fun _ => rfl
  | flush => exact Host.io_acts (.ask .stdout .flush) fun _ => rfl
  | request code => exact fun s => ⟨[.request code], rfl⟩
  | read =>
    refine Host.Acts.bind (Host.io_acts .readLine fun _ => rfl) fun line => ?_
    exact Host.io_acts (.ask .stdout (.writeLine _)) fun _ => rfl
  | fail e => exact Host.acts_of_world fun s => rfl
  | abort text => exact Host.acts_of_world fun s => rfl

/-- whatever scripts do to their context, they do by acts -/
theorem Primitive.perform_acts (p : Primitive) : Host.Acts (p.perform : Host (Context σ μ) Code Value Ref) := by
  cases p with
  | effect e => exact e.perform_acts.bind fun _ => Host.acts_of_world fun s => rfl
  | yield how v =>
    refine Host.acts_of_world fun s => ?_
    cases how <;> rfl

end Script

/-! ## Programs of joined actions -/

namespace Dialect

/-- what is reported after the steps: their failure, or what comes of demanding everything of their result -/
inductive Finishes (L : Dialect σ C V P μ) : Outcome Ref → Session (Context σ μ) C V → Outcome (Option Int32) →
    Session (Context σ μ) C V → Prop where
  | failed {e : EvalError} {s : Session (Context σ μ) C V} : Finishes L (.error e) s (.error e) s
  | forced {r : Ref} {v : V} {s s' : Session (Context σ μ) C V} (hdeep : Host.forceDeep L.engine r s = .ok v s') :
      Finishes L (.ok r) s (.ok (L.status v)) s'
  | unforced {r : Ref} {e : EvalError} {s s' : Session (Context σ μ) C V}
      (hdeep : Host.forceDeep L.engine r s = .error (.failed e) s') : Finishes L (.ok r) s (.error e) s'

variable {L : Dialect σ C V P μ} {main : Ref} {s s₀ s' : Session (Context σ μ) C V} {j : Joined P}

omit [Device (σ × μ)] in
/-- demanding everything of a result leaves the context alone -/
theorem Finishes.world {o : Outcome Ref} {outcome : Outcome (Option Int32)} (hfinishes : L.Finishes o s outcome s') :
    s'.world = s.world := by
  cases hfinishes with
  | failed => rfl
  | forced hdeep =>
    rw [← Host.forceDeep_world L.engine _ s, hdeep]
    rfl
  | unforced hdeep =>
    rw [← Host.forceDeep_world L.engine _ s, hdeep]
    rfl

omit [Device (σ × μ)] in
theorem finishes_iff {r : Ref} {outcome : Outcome (Option Int32)} :
    Host.attempt (do return L.status (← Host.forceDeep L.engine r)) s = .ok outcome s' ↔
      L.Finishes (.ok r) s outcome s' := by
  constructor
  · intro hended
    rcases Host.attempt_bind_iff.1 hended with ⟨v, s₁, hdeep, hended⟩ | ⟨e, hdeep, rfl⟩
    · cases hended
      exact .forced (Host.attempt_ok_iff.1 hdeep)
    · exact .unforced (Host.attempt_failed_iff.1 hdeep)
  · intro hfinishes
    cases hfinishes with
    | forced hdeep => exact Host.attempt_ok (bind_ok hdeep)
    | unforced hdeep => exact Host.attempt_failed (bind_error hdeep)

omit [Device (σ × μ)] in
/-- a program of joined actions runs its steps, and then demands everything of the result -/
theorem Enters.attempt_joined (henters : L.Enters main s j.action s₀) {outcome : Outcome (Option Int32)} :
    Host.attempt (L.execute main) s = .ok outcome s' ↔ ∃ o s₁,
      Host.attempt (Runs.remaining L.perform (.ok j.first) j.steps) s₀ = .ok o s₁ ∧ L.Finishes o s₁ outcome s' := by
  have hexecuted : Host.attempt (L.execute main) s = Host.attempt (Runs.remaining L.perform (.ok j.first) j.steps >>=
      fun r => do return L.status (← Host.forceDeep L.engine r)) s₀ := by
    simp only [Host.attempt, henters.execute, j.run_action]
    rfl
  rw [hexecuted, Host.attempt_bind_iff]
  constructor
  · rintro (⟨r, s₁, hbegun, hended⟩ | ⟨e, hbegun, rfl⟩)
    · exact ⟨.ok r, s₁, hbegun, finishes_iff.1 hended⟩
    · exact ⟨.error e, s', hbegun, .failed⟩
  · rintro ⟨o, s₁, hbegun, hfinishes⟩
    cases o with
    | ok r => exact .inl ⟨r, s₁, hbegun, finishes_iff.2 hfinishes⟩
    | error e =>
      cases hfinishes
      exact .inr ⟨e, hbegun, rfl⟩

/-- **Joined actions run in order.** Let the entry of a program be actions joined in any nesting, whose primitive steps
do what they do to the context by acts, and let the output of the program be captured, buffered in either way and with
any capacity. Whenever the steps run up to the first failure, or to the end, and everything of the last result can be
demanded, the program reports just that; then each stream has got the bytes of the acts of the steps that ran, in order
and no others, and the registry has been asked for their codes. The program returns in no other case. Another nesting of
the same steps makes no difference: it is the same procedure. -/
theorem joined_steps_run_in_order (L : Dialect Target C V P) (hacts : ∀ p, Host.Acts (L.perform p))
    (settings : Settings)
    (stdin : Source) (s s₀ : Session (Context Target) C V) (hfresh : s.world = .fresh settings stdin .memory .memory)
    (main : Ref) (j : Joined P) (henters : L.Enters main s j.action s₀) :
    (∀ log o s₁ outcome s₂, Runs L.perform (.ok j.first) j.steps s₀ log o s₁ → L.Finishes o s₁ outcome s₂ →
      ∃ c, L.runProgram main s = .ok (outcome.mapError .eval) ⟨s₂.heap, s₂.events, c⟩ ∧
        (∀ stream, (c.handle stream).buffer = [] ∧
          (c.handle stream).delivered = log.flatten.flatMap (Act.bytes stream)) ∧
        c.registry = (log.flatten.filterMap Act.code?).foldl Registry.request .initial) ∧
    (∀ result s', L.runProgram main s = .ok result s' → ∃ log o s₁ outcome s₂,
      Runs L.perform (.ok j.first) j.steps s₀ log o s₁ ∧ L.Finishes o s₁ outcome s₂ ∧
        result = outcome.mapError .eval) ∧
    ∀ j' : Joined P, j'.first = j.first → j'.steps = j.steps → j'.action.run L.perform = j.action.run L.perform := by
  have hcaptured : s.world.Captured := hfresh ▸ Context.fresh_captured settings stdin
  have hbegun : s₀.world = s.world := by
    obtain ⟨v, hentry, -⟩ := henters
    have hsame := Host.force_world L.engine main s
    rw [hentry] at hsame
    exact hsame
  have hcontext : ∀ {log o s₁ outcome s₂}, Runs L.perform (.ok j.first) j.steps s₀ log o s₁ →
      L.Finishes o s₁ outcome s₂ → s₂.world = s.world.after log.flatten := by
    intro log o s₁ outcome s₂ hruns hfinishes
    rw [hfinishes.world, hruns.world, hbegun]
  refine ⟨?_, ?_, ?_⟩
  · intro log o s₁ outcome s₂ hruns hfinishes
    have hworld := hcontext hruns hfinishes
    have hexecuted := henters.attempt_joined.2 ⟨o, s₁, hruns.attempt_remaining, hfinishes⟩
    obtain ⟨c, hreturned, hregistry, hflushed⟩ :=
      runProgram_captured hexecuted (hworld ▸ Context.after_captured hcaptured log.flatten)
    refine ⟨c, hreturned, fun stream => ⟨(hflushed stream).1, ?_⟩, ?_⟩
    · rw [(hflushed stream).2, hworld, Context.after_account hcaptured, hfresh]
      cases stream <;> rfl
    · rw [hregistry, hworld, Context.after_registry, hfresh]
      rfl
  · intro result s' hreturned
    obtain ⟨outcome, s₂, hexecutes, -, -⟩ := runProgram_iff.1 hreturned
    have hexecuted := executes_iff.1 hexecutes
    obtain ⟨o, s₁, hran, hfinishes⟩ := henters.attempt_joined.1 hexecuted
    obtain ⟨log, hruns⟩ := Runs.of_attempt hacts hran
    -- with captured output the closing flushes cannot fail, so what was returned is what the entry gave
    obtain ⟨c, hreturned', -, -⟩ :=
      runProgram_captured hexecuted (hcontext hruns hfinishes ▸ Context.after_captured hcaptured log.flatten)
    rw [hreturned'] at hreturned
    cases hreturned
    exact ⟨log, o, s₁, outcome, s₂, hruns, hfinishes, rfl⟩
  · intro j' hfirst hsteps
    rw [j'.run_action, j.run_action, hfirst, hsteps]

/-- a first action and five steps: they write, hand a result on and ask for a code, and the fourth fails instead of making
an action -/
def brittle : Joined Script.Primitive :=
  ((Joined.start (.primitive (.effect (.out "ab")))).andThen
    (.join (.step fun _ => .ok (.primitive (.effect (.errLine "c"))))
      (.join (.step fun r => .ok (.pure r)) (.step fun _ => .ok (.primitive (.effect (.request 3))))))).andThen
    (.join (.step fun _ => .error (.user "no")) (.step fun _ => .ok (.primitive (.effect (.out "d")))))

/-- With room for one byte in each buffer, standard output gets `ab` and standard error the line `c`; the registry is asked
for 3, and the failure is reported. Of the step after it nothing is seen. -/
theorem joined_steps_run_in_order_brittle :
    ∃ (s s' : Session (Context Target) Script.Code Script.Value),
      s.world = .fresh ⟨true, 1, .warn, true⟩ [] .memory .memory ∧
      (Script.dialect 9).runProgram 0 s = .ok (.error (.eval (.user "no"))) s' ∧
      s'.world.stdout.delivered = [97, 98] ∧ s'.world.stderr.delivered = [99, 10] ∧ s'.world.registry = ⟨3⟩ := by
  let s : Session (Context Target) Script.Code Script.Value :=
    ⟨#[.value (.action brittle.action)], [], .fresh ⟨true, 1, .warn, true⟩ [] .memory .memory⟩
  have henters : (Script.dialect 9).Enters 0 s brittle.action s := ⟨.action brittle.action, rfl, rfl⟩
  obtain ⟨s₁, hruns⟩ : ∃ s₁, Runs (Script.dialect 9).perform (.ok brittle.first) brittle.steps s
      [[.ask .stdout (.write "ab")], [.ask .stderr (.writeLine "c")], [], [.request 3]] (.error (.user "no")) s₁ :=
    ⟨_, .next rfl rfl (.next rfl rfl (.next rfl rfl (.next rfl rfl .noAction)))⟩
  obtain ⟨c, hreturned, hstreams, hregistry⟩ := (joined_steps_run_in_order (Script.dialect 9)
    Script.Primitive.perform_acts _ [] s s rfl 0 brittle henters).1 _ _ s₁ _ s₁ hruns .failed
  refine ⟨s, _, rfl, hreturned, (hstreams .stdout).2.trans ?_, (hstreams .stderr).2.trans ?_, hregistry.trans ?_⟩
  · decide +kernel
  · decide +kernel
  · decide +kernel

end Dialect

end ByNeed
