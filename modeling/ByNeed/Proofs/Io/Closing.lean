/-
How a program ends.

Whatever comes of forcing the entry, performing its action and demanding the result, both handles are flushed before
anything is reported: standard error first, and standard output in any case. The devices of the two handles may share a
medium, so that the order can be seen.
- `executes_iff`: the phases of an execution, and where each of them can fail.
- `runProgram_iff`: what is reported, and what the context is like then.
- `Writes.gains`: requests made of the two handles, one after another, add up in each of them.
- `program_ends_flushed`: if both flushes succeed, all that was written has reached its device, in order.
-/
import ByNeed.Script
import ByNeed.Proofs.Io.Ledger

namespace ByNeed

variable {σ μ C V P α β : Type}

/-! ## The two streams of a context -/

/-- one of the two handles of a context -/
inductive Stream where
  | stdout
  | stderr
deriving DecidableEq

/-- a request made of a stream, with its answer -/
abbrev Stream.Entry := Stream × Handle.Entry

def Stream.own (stream : Stream) (log : List Stream.Entry) : List Handle.Entry :=
  log.filterMap fun entry => if entry.1 = stream then some entry.2 else none

namespace Context

def handle (c : Context σ μ) : Stream → Handle σ
  | .stdout => c.stdout
  | .stderr => c.stderr

variable [Device (σ × μ)]

/-- makes a request of a stream -/
def ask (stream : Stream) (r : Handle.Request) (c : Context σ μ) : Except IoError Unit × Context σ μ :=
  match stream with
  | .stdout => c.onStdout r.perform
  | .stderr => c.onStderr r.perform

/-- the answer is that of the handle at the medium, and the other handle stays as it is -/
theorem ask_handle (stream : Stream) (r : Handle.Request) (c : Context σ μ) :
    (c.ask stream r).1 = (((c.handle stream).attach c.medium).ask r).1 ∧
    ∀ other, (c.ask stream r).2.handle other =
      if other = stream then (((c.handle stream).attach c.medium).ask r).2.detach else c.handle other := by
  cases stream with
  | stdout =>
    simp only [ask, onStdout, Handle.ask, handle]
    cases r.perform (c.stdout.attach c.medium) <;> exact ⟨rfl, fun other => by cases other <;> rfl⟩
  | stderr =>
    simp only [ask, onStderr, Handle.ask, handle]
    cases r.perform (c.stderr.attach c.medium) <;> exact ⟨rfl, fun other => by cases other <;> rfl⟩

/-- `bytes` came to the account of a handle whose device uses a medium `μ`; what is newly said to be taken has gone to
the device -/
structure Gains (μ : Type) [Device (σ × μ)] (bytes : Bytes) (h h' : Handle σ) : Prop where
  name : h'.name = h.name
  account : h'.account = h.account ++ bytes
  taken : ∃ more, h'.delivered = h.delivered ++ more ∧
    ∀ accepted : σ → Bytes, Device.Records (fun device : σ × μ => accepted device.1) →
      accepted h'.device = accepted h.device ++ more

namespace Gains

variable {h h' h'' : Handle σ} {bytes bytes' : Bytes}

theorem refl (h : Handle σ) : Gains μ [] h h := ⟨rfl, (List.append_nil _).symm, [], by simp, by simp⟩

theorem trans (hfirst : Gains μ bytes h h') (hsecond : Gains μ bytes' h' h'') : Gains μ (bytes ++ bytes') h h'' where
  name := hsecond.name.trans hfirst.name
  account := by rw [hsecond.account, hfirst.account, List.append_assoc]
  taken := by
    obtain ⟨more, hmore, haccepted⟩ := hfirst.taken
    obtain ⟨more', hmore', haccepted'⟩ := hsecond.taken
    refine ⟨more ++ more', by rw [hmore', hmore, List.append_assoc], fun accepted hrecords => ?_⟩
    rw [haccepted' accepted hrecords, haccepted accepted hrecords, List.append_assoc]

/-- once nothing is buffered any more, the device has got what was buffered before, and then the bytes that came -/
theorem emptied (hgains : Gains μ bytes h h') (hempty : h'.buffer = []) :
    h'.delivered = h.account ++ bytes ∧
    ∀ accepted : σ → Bytes, Device.Records (fun device : σ × μ => accepted device.1) →
      accepted h'.device = accepted h.device ++ (h.buffer ++ bytes) := by
  have hdelivered : h'.delivered = h.account ++ bytes := by
    rw [← hgains.account, Handle.account, hempty, List.append_nil]
  refine ⟨hdelivered, fun accepted hrecords => ?_⟩
  obtain ⟨more, hmore, haccepted⟩ := hgains.taken
  rw [haccepted accepted hrecords]
  rw [hmore, Handle.account, List.append_assoc] at hdelivered
  rw [List.append_cancel_left hdelivered]

end Gains

/-- a request adds its bytes to the account of its stream, and nothing to the other -/
theorem ask_gains (stream : Stream) (r : Handle.Request) (c : Context σ μ) :
    ∃ piece, Handle.Entry.Covers (r, (c.ask stream r).1) piece ∧
      ∀ other, Gains μ (if other = stream then piece else []) (c.handle other) ((c.ask stream r).2.handle other) := by
  obtain ⟨hanswer, hhandles⟩ := ask_handle stream r c
  obtain ⟨piece, hcovers, hadds⟩ := Handle.ask_adds r ((c.handle stream).attach c.medium)
  refine ⟨piece, by rwa [hanswer], fun other => ?_⟩
  rw [hhandles other]
  split_ifs with hother
  · rw [hother]
    obtain ⟨more, hmore, haccepted⟩ := hadds.taken
    exact ⟨hadds.name, hadds.account, more, hmore, fun accepted => haccepted fun device => accepted device.1⟩
  · exact .refl _

/-- requests made of the streams on the way from `c` to another context, with the answers; whatever else happens leaves
the handles and the medium alone -/
inductive Writes (c : Context σ μ) : List Stream.Entry → Context σ μ → Prop where
  | start : Writes c [] c
  | ask {log : List Stream.Entry} {c' : Context σ μ} (hbefore : Writes c log c') (stream : Stream)
      (r : Handle.Request) :
      Writes c (log ++ [(stream, r, (c'.ask stream r).1)]) (c'.ask stream r).2
  | other {log : List Stream.Entry} {c' c'' : Context σ μ} (hbefore : Writes c log c')
      (hsame : ∀ stream, c''.handle stream = c'.handle stream) (hmedium : c''.medium = c'.medium) : Writes c log c''

namespace Writes

variable {c c' c'' : Context σ μ} {log log' : List Stream.Entry}

theorem trans (hfirst : Writes c log c') (hsecond : Writes c' log' c'') : Writes c (log ++ log') c'' := by
  induction hsecond with
  | start =>
    rw [List.append_nil]
    exact hfirst
  | ask hbefore stream r ih =>
    rw [← List.append_assoc]
    exact ih.ask stream r
  | other hbefore hsame hmedium ih => exact ih.other hsame hmedium

/-- **What was written adds up**, in each stream by itself. -/
theorem gains (hwrites : Writes c log c') (stream : Stream) :
    ∃ pieces, List.Forall₂ Handle.Entry.Covers (stream.own log) pieces ∧
      Gains μ pieces.flatten (c.handle stream) (c'.handle stream) := by
  induction hwrites with
  | start => exact ⟨[], .nil, .refl _⟩
  | @ask log c' hbefore asked r ih =>
    obtain ⟨pieces, hcovers, hgains⟩ := ih
    obtain ⟨piece, hpiece, hhandles⟩ := ask_gains asked r c'
    have hnext := hgains.trans (hhandles stream)
    by_cases hown : stream = asked
    · have hlog : stream.own (log ++ [(asked, r, (c'.ask asked r).1)]) =
          stream.own log ++ [(r, (c'.ask asked r).1)] := by simp [Stream.own, hown]
      refine ⟨pieces ++ [piece], ?_, ?_⟩
      · rw [hlog]
        exact List.rel_append hcovers (.cons hpiece .nil)
      · rw [if_pos hown] at hnext
        rwa [List.flatten_append, List.flatten_singleton]
    · have hlog : stream.own (log ++ [(asked, r, (c'.ask asked r).1)]) = stream.own log := by
        simp [Stream.own, Ne.symm hown]
      refine ⟨pieces, by rwa [hlog], ?_⟩
      rwa [if_neg hown, List.append_nil] at hnext
  | other hbefore hsame hmedium ih =>
    rw [hsame]
    exact ih

end Writes

/-- a flush adds nothing to either stream -/
theorem flush_gains (stream other : Stream) (c : Context σ μ) :
    Gains μ [] (c.handle other) ((c.ask stream .flush).2.handle other) := by
  obtain ⟨piece, hcovers, hhandles⟩ := ask_gains stream .flush c
  have hpiece : piece = [] := List.prefix_nil.1 hcovers.1
  have hgains := hhandles other
  rwa [hpiece, ite_self] at hgains

/-- a flush that succeeds empties its stream -/
theorem buffer_flushed {stream : Stream} {c : Context σ μ} (hok : (c.ask stream .flush).1 = .ok ()) :
    ((c.ask stream .flush).2.handle stream).buffer = [] := by
  obtain ⟨hanswer, hhandles⟩ := ask_handle stream .flush c
  rw [hhandles stream, if_pos rfl]
  exact Handle.ask_flush_empties (hanswer.symm.trans hok)

theorem flushes_gain (c : Context σ μ) (stream : Stream) :
    Gains μ [] (c.handle stream) (((c.ask .stderr .flush).2.ask .stdout .flush).2.handle stream) :=
  (flush_gains .stderr stream c).trans (flush_gains .stdout stream _)

/-- if both streams are flushed with success, no buffer holds anything -/
theorem flushes_empty {c : Context σ μ} (herr : (c.ask .stderr .flush).1 = .ok ())
    (hout : ((c.ask .stderr .flush).2.ask .stdout .flush).1 = .ok ()) (stream : Stream) :
    (((c.ask .stderr .flush).2.ask .stdout .flush).2.handle stream).buffer = [] := by
  cases stream with
  | stdout => exact buffer_flushed hout
  | stderr =>
    obtain ⟨-, hhandles⟩ := ask_handle .stdout .flush (c.ask .stderr .flush).2
    rw [hhandles .stderr]
    exact buffer_flushed herr

/-- if both streams are flushed with success, each device has taken all of the account -/
theorem delivered_flushed {c : Context σ μ} (herr : (c.ask .stderr .flush).1 = .ok ())
    (hout : ((c.ask .stderr .flush).2.ask .stdout .flush).1 = .ok ()) (stream : Stream) :
    (((c.ask .stderr .flush).2.ask .stdout .flush).2.handle stream).buffer = [] ∧
    (((c.ask .stderr .flush).2.ask .stdout .flush).2.handle stream).delivered = (c.handle stream).account := by
  have hempty := flushes_empty herr hout stream
  have hdelivered := ((flushes_gain c stream).emptied hempty).1
  rw [List.append_nil] at hdelivered
  exact ⟨hempty, hdelivered⟩

end Context

/-! ## The phases of an execution -/

namespace Host

variable {W : Type} {x : Host W C V α} {s s' : Session W C V}

theorem attempt_ok {a : α} (hx : x s = .ok a s') : attempt x s = .ok (.ok a) s' := by simp only [attempt, hx]

theorem attempt_failed {e : EvalError} (hx : x s = .error (.failed e) s') : attempt x s = .ok (.error e) s' := by
  simp only [attempt, hx]

/-- an attempt that ends has caught nothing but an evaluation error -/
theorem attempt_error {stop : Stop} {s₁ : Session W C V} {o : Outcome α} (hx : x s = .error stop s₁)
    (h : attempt x s = .ok o s') : ∃ e, stop = .failed e ∧ o = .error e ∧ s' = s₁ := by
  cases stop with
  | failed e =>
    rw [attempt_failed hx] at h
    cases h
    exact ⟨e, rfl, rfl, rfl⟩
  | aborted text => simp [attempt, hx] at h
  | exhausted => simp [attempt, hx] at h

theorem attempt_ok_iff {a : α} : attempt x s = .ok (.ok a) s' ↔ x s = .ok a s' := by
  simp only [attempt]
  cases x s with
  | ok a t => simp
  | error stop t => cases stop <;> simp

theorem attempt_failed_iff {e : EvalError} : attempt x s = .ok (.error e) s' ↔ x s = .error (.failed e) s' := by
  simp only [attempt]
  cases x s with
  | ok a t => simp
  | error stop t => cases stop <;> simp

/-- what comes of one procedure after another: the failure of the first, or what comes of the second -/
theorem attempt_bind_iff {f : α → Host W C V β} {o : Outcome β} :
    attempt (x >>= f) s = .ok o s' ↔
      (∃ a t, attempt x s = .ok (.ok a) t ∧ attempt (f a) t = .ok o s') ∨
        ∃ e, attempt x s = .ok (.error e) s' ∧ o = .error e := by
  simp only [attempt, bind, EStateM.bind]
  cases x s with
  | ok a t => simp
  | error stop t => cases stop <;> simp [eq_comm, and_comm]

end Host

namespace Dialect

/-- forcing the entry gives an action -/
def Enters (L : Dialect σ C V P μ) (main : Ref) (s : Session (Context σ μ) C V) (a : Action P)
    (s₁ : Session (Context σ μ) C V) : Prop :=
  ∃ v, Host.force L.engine main s = .ok v s₁ ∧ L.action? v = some a

/-- executing a program ends, without an abort, with an outcome -/
inductive Executes (L : Dialect σ C V P μ) (main : Ref) (s : Session (Context σ μ) C V) :
    Outcome (Option Int32) → Session (Context σ μ) C V → Prop where
  | entryFails {e : EvalError} {s₁ : Session (Context σ μ) C V}
      (hentry : Host.force L.engine main s = .error (.failed e) s₁) : Executes L main s (.error e) s₁
  | noAction {v : V} {s₁ : Session (Context σ μ) C V} (hentry : Host.force L.engine main s = .ok v s₁)
      (haction : L.action? v = none) : Executes L main s (.error (.shape "action" "value")) s₁
  | actionFails {a : Action P} {e : EvalError} {s₁ s₂ : Session (Context σ μ) C V} (henters : L.Enters main s a s₁)
      (haction : a.run L.perform s₁ = .error (.failed e) s₂) : Executes L main s (.error e) s₂
  | resultFails {a : Action P} {r : Ref} {e : EvalError} {s₁ s₂ s₃ : Session (Context σ μ) C V}
      (henters : L.Enters main s a s₁) (haction : a.run L.perform s₁ = .ok r s₂)
      (hresult : Host.force L.engine r s₂ = .error (.failed e) s₃) : Executes L main s (.error e) s₃
  | partFails {a : Action P} {r : Ref} {v : V} {e : EvalError} {s₁ s₂ s₃ s₄ : Session (Context σ μ) C V}
      (henters : L.Enters main s a s₁) (haction : a.run L.perform s₁ = .ok r s₂)
      (hresult : Host.force L.engine r s₂ = .ok v s₃) (hparts : Host.normalize L.engine v s₃ = .error (.failed e) s₄) :
      Executes L main s (.error e) s₄
  | finishes {a : Action P} {r : Ref} {v w : V} {s₁ s₂ s₃ s₄ : Session (Context σ μ) C V}
      (henters : L.Enters main s a s₁) (haction : a.run L.perform s₁ = .ok r s₂)
      (hresult : Host.force L.engine r s₂ = .ok v s₃)
      (hparts : Host.normalize L.engine v s₃ = .ok w s₄) : Executes L main s (.ok (L.status w)) s₄

variable {L : Dialect σ C V P μ} {main : Ref} {s s' : Session (Context σ μ) C V}

/-- after the entry, what is left to do is the action and its result -/
theorem Enters.execute {a : Action P} {s₁ : Session (Context σ μ) C V} (henters : L.Enters main s a s₁) :
    L.execute main s = (do
      let r ← a.run L.perform
      let v ← Host.forceDeep L.engine r
      return L.status v : Host (Context σ μ) C V (Option Int32)) s₁ := by
  obtain ⟨v, hentry, haction⟩ := henters
  rw [Dialect.execute, bind_ok hentry, haction]

/-- the phases are those that are run -/
theorem executes_iff {outcome : Outcome (Option Int32)} :
    L.Executes main s outcome s' ↔ Host.attempt (L.execute main) s = .ok outcome s' := by
  constructor
  · intro h
    cases h with
    | entryFails hentry => exact Host.attempt_failed (bind_error hentry)
    | noAction hentry haction =>
      refine Host.attempt_failed ((bind_ok hentry).trans ?_)
      rw [haction]
      rfl
    | actionFails henters haction => exact Host.attempt_failed (henters.execute.trans (bind_error haction))
    | resultFails henters haction hresult =>
      have hdeep : Host.forceDeep L.engine _ _ = .error _ _ := bind_error hresult
      exact Host.attempt_failed (henters.execute.trans ((bind_ok haction).trans (bind_error hdeep)))
    | partFails henters haction hresult hparts =>
      have hdeep : Host.forceDeep L.engine _ _ = .error _ _ := (bind_ok hresult).trans hparts
      exact Host.attempt_failed (henters.execute.trans ((bind_ok haction).trans (bind_error hdeep)))
    | finishes henters haction hresult hparts =>
      have hdeep : Host.forceDeep L.engine _ _ = .ok _ _ := (bind_ok hresult).trans hparts
      exact Host.attempt_ok (henters.execute.trans ((bind_ok haction).trans (bind_ok hdeep)))
  · intro h
    cases hentry : Host.force L.engine main s with
    | error stop s₁ =>
      have hended : L.execute main s = .error stop s₁ := bind_error hentry
      obtain ⟨e, rfl, rfl, rfl⟩ := Host.attempt_error hended h
      exact .entryFails hentry
    | ok v s₁ =>
      cases hv : L.action? v with
      | none =>
        have hended : L.execute main s = .error (.failed (.shape "action" "value")) s₁ := by
          refine (bind_ok hentry).trans ?_
          rw [hv]
          rfl
        obtain ⟨e, he, rfl, rfl⟩ := Host.attempt_error hended h
        cases he
        exact .noAction hentry hv
      | some a =>
        have henters : L.Enters main s a s₁ := ⟨v, hentry, hv⟩
        cases haction : a.run L.perform s₁ with
        | error stop s₂ =>
          obtain ⟨e, rfl, rfl, rfl⟩ := Host.attempt_error (henters.execute.trans (bind_error haction)) h
          exact .actionFails henters haction
        | ok r s₂ =>
          have hbegun := henters.execute.trans (bind_ok haction)
          cases hresult : Host.force L.engine r s₂ with
          | error stop s₃ =>
            have hdeep : Host.forceDeep L.engine r s₂ = .error stop s₃ := bind_error hresult
            obtain ⟨e, rfl, rfl, rfl⟩ := Host.attempt_error (hbegun.trans (bind_error hdeep)) h
            exact .resultFails henters haction hresult
          | ok w s₃ =>
            have hdeep : Host.forceDeep L.engine r s₂ = Host.normalize L.engine w s₃ := bind_ok hresult
            cases hparts : Host.normalize L.engine w s₃ with
            | error stop s₄ =>
              obtain ⟨e, rfl, rfl, rfl⟩ :=
                Host.attempt_error (hbegun.trans (bind_error (hdeep.trans hparts))) h
              exact .partFails henters haction hresult hparts
            | ok x s₄ =>
              have hended : L.execute main s = .ok (L.status x) s₄ := hbegun.trans (bind_ok (hdeep.trans hparts))
              rw [Host.attempt_ok hended] at h
              cases h
              exact .finishes henters haction hresult hparts

/-! ## What is reported -/

/-- an evaluation error counts first, then the flush of standard error, then that of standard output -/
def verdict (c : Context σ μ) (outcome : Outcome (Option Int32)) (err out : Except IoError Unit) :
    Except Failure (Option Int32) :=
  match outcome, err, out with
  | .error e, _, _ => .error (.eval e)
  | .ok _, .error e, _ => .error (.flush c.stderr.name e)
  | .ok _, .ok (), .error e => .error (.flush c.stdout.name e)
  | .ok status, .ok (), .ok () => .ok status

variable [Device (σ × μ)]

/-- flushing does not rename a handle -/
theorem name_flushed (c : Context σ μ) (stream : Stream) :
    (((c.onStderr Handle.flush).2.onStdout Handle.flush).2.handle stream).name = (c.handle stream).name :=
  (c.flushes_gain stream).name

/-- flushing all is flushing standard error and then standard output -/
theorem flushAll_verdict (c : Context σ μ) (status : Option Int32) :
    let err := c.onStderr Handle.flush
    let out := err.2.onStdout Handle.flush
    c.flushAll.2 = out.2 ∧ (c.flushAll.1.map fun () => status) = verdict c (.ok status) err.1 out.1 := by
  have herr := name_flushed c .stderr
  have hout := name_flushed c .stdout
  unfold Context.flushAll
  generalize c.onStderr Handle.flush = first at herr hout ⊢
  obtain ⟨err, c₁⟩ := first
  dsimp only at herr hout ⊢
  generalize c₁.onStdout Handle.flush = second at herr hout ⊢
  obtain ⟨out, c₂⟩ := second
  cases err with
  | error e => exact ⟨rfl, congrArg (fun name => Except.error (Failure.flush name e)) herr⟩
  | ok _ =>
    cases out with
    | error e => exact ⟨rfl, congrArg (fun name => Except.error (Failure.flush name e)) hout⟩
    | ok _ => exact ⟨rfl, rfl⟩

/-- after an execution both handles are flushed, whatever came of it, and the outcome is reported -/
theorem runProgram_of_attempt {outcome : Outcome (Option Int32)} {s₁ : Session (Context σ μ) C V}
    (hexecuted : Host.attempt (L.execute main) s = .ok outcome s₁) :
    let err := s₁.world.onStderr Handle.flush
    let out := err.2.onStdout Handle.flush
    L.runProgram main s = .ok (verdict s₁.world outcome err.1 out.1) ⟨s₁.heap, s₁.events, out.2⟩ := by
  have hflushed : Host.withWorld Context.flushAll s₁ =
      .ok s₁.world.flushAll.1 ⟨s₁.heap, s₁.events, s₁.world.flushAll.2⟩ := rfl
  refine (bind_ok hexecuted).trans ((bind_ok hflushed).trans ?_)
  cases outcome with
  | error e =>
    rw [(flushAll_verdict s₁.world none).1]
    rfl
  | ok status =>
    obtain ⟨hcontext, hreported⟩ := flushAll_verdict s₁.world status
    rw [hcontext, ← hreported]
    rfl

/-- when a program returns, its execution has ended, and both handles have been flushed since, each of them once -/
theorem runProgram_iff {result : Except Failure (Option Int32)} :
    L.runProgram main s = .ok result s' ↔ ∃ outcome s₁, L.Executes main s outcome s₁ ∧
      let err := s₁.world.onStderr Handle.flush
      let out := err.2.onStdout Handle.flush
      s' = ⟨s₁.heap, s₁.events, out.2⟩ ∧ result = verdict s₁.world outcome err.1 out.1 := by
  constructor
  · intro hreturned
    cases hexecuted : Host.attempt (L.execute main) s with
    | ok outcome s₁ =>
      rw [runProgram_of_attempt hexecuted] at hreturned
      cases hreturned
      exact ⟨outcome, s₁, executes_iff.2 hexecuted, rfl, rfl⟩
    | error stop s₁ =>
      have hended : L.runProgram main s = .error stop s₁ := bind_error hexecuted
      rw [hended] at hreturned
      cases hreturned
  · rintro ⟨outcome, s₁, hexecutes, rfl, rfl⟩
    exact runProgram_of_attempt (executes_iff.1 hexecutes)

end Dialect

/-! ## Procedures that write by requests only -/

namespace Host

/-- the session that a procedure leaves -/
def ending {W : Type} : EStateM.Result Stop (Session W C V) α → Session W C V
  | .ok _ s => s
  | .error _ s => s

theorem drive_world {W : Type} (E : Engine Empty C V) (control : Control Empty C V)
    (answer : Control Empty C V → Except Stop α) (s : Session W C V) :
    (ending (drive E control answer s)).world = s.world := by
  obtain ⟨heap, events, world⟩ := s
  dsimp only [drive]
  split
  · rfl
  · split <;> rfl

variable [Device (σ × μ)]

/-- whatever a procedure does to the handles and the medium of its context, it does by requests -/
def Orderly (x : Host (Context σ μ) C V α) : Prop := ∀ s, ∃ log, Context.Writes s.world log (ending (x s)).world

variable {x : Host (Context σ μ) C V α} {f : α → Host (Context σ μ) C V β}

theorem Orderly.bind (hfirst : Orderly x) (hrest : ∀ a, Orderly (f a)) : Orderly (x >>= f) := by
  intro s
  obtain ⟨log, hwrites⟩ := hfirst s
  cases hx : x s with
  | error stop s₁ =>
    rw [hx] at hwrites
    rw [bind_error hx]
    exact ⟨log, hwrites⟩
  | ok a s₁ =>
    rw [hx] at hwrites
    rw [bind_ok hx]
    obtain ⟨log', hwrites'⟩ := hrest a s₁
    exact ⟨log ++ log', hwrites.trans hwrites'⟩

/-- a procedure that leaves its context alone -/
theorem orderly_of_world (hsame : ∀ s, (ending (x s)).world = s.world) : Orderly x := by
  intro s
  rw [hsame s]
  exact ⟨[], .start⟩

theorem ofOutcome_orderly (o : Outcome α) : Orderly (ofOutcome o : Host (Context σ μ) C V α) := by
  apply orderly_of_world
  intro s
  cases o <;> rfl

theorem force_orderly (E : Engine Empty C V) (r : Ref) : Orderly (force E r : Host (Context σ μ) C V V) :=
  (orderly_of_world (drive_world E _ _)).bind ofOutcome_orderly

theorem normalize_orderly (E : Engine Empty C V) (v : V) : Orderly (normalize E v : Host (Context σ μ) C V V) :=
  (orderly_of_world (drive_world E _ _)).bind ofOutcome_orderly

end Host

namespace Dialect

variable {L : Dialect σ C V P μ} {main : Ref} {s s' : Session (Context σ μ) C V}

/-- an execution leaves the session that it ends in -/
theorem Executes.ending {outcome : Outcome (Option Int32)} (hexecutes : L.Executes main s outcome s') :
    Host.ending (L.execute main s) = s' := by
  have hexecuted := executes_iff.1 hexecutes
  cases hx : L.execute main s with
  | ok status s₁ =>
    rw [Host.attempt_ok hx] at hexecuted
    cases hexecuted
    rfl
  | error stop s₁ =>
    obtain ⟨e, -, -, rfl⟩ := Host.attempt_error hx hexecuted
    rfl

variable [Device (σ × μ)]

/-- the primitive steps write by requests only -/
def Orderly (L : Dialect σ C V P μ) : Prop := ∀ p, Host.Orderly (L.perform p)

theorem Orderly.run (horderly : L.Orderly) (a : Action P) : Host.Orderly (a.run L.perform) := by
  induction a with
  | pure r => exact Host.orderly_of_world fun s => rfl
  | fail e => exact Host.orderly_of_world fun s => rfl
  | primitive p => exact horderly p
  | bind first next ihFirst ihNext => exact ihFirst.bind ihNext

theorem Orderly.execute (horderly : L.Orderly) (main : Ref) : Host.Orderly (L.execute main) := by
  refine (Host.force_orderly L.engine main).bind fun v => ?_
  cases L.action? v with
  | none => exact Host.orderly_of_world fun s => rfl
  | some a =>
    refine (horderly.run a).bind fun r => Host.Orderly.bind ?_ fun v => ?_
    · exact (Host.force_orderly L.engine r).bind (Host.normalize_orderly L.engine)
    · exact Host.orderly_of_world fun s => rfl

end Dialect

/-! ## Scripts -/

namespace Host

variable [Device (σ × μ)]

/-- an operation on the context that is made up of requests -/
theorem io_orderly {op : Context σ μ → Except IoError α × Context σ μ}
    (hrequests : ∀ c, ∃ log, Context.Writes c log (op c).2) : Orderly (io op : Host (Context σ μ) C V α) := by
  intro s
  have hworld : (ending ((io op : Host (Context σ μ) C V α) s)).world = (op s.world).2 := by
    have hread : Host.withWorld op s = .ok (op s.world).1 ⟨s.heap, s.events, (op s.world).2⟩ := rfl
    rw [io, bind_ok hread]
    cases (op s.world).1 <;> rfl
  rw [hworld]
  exact hrequests s.world

/-- a request made of a stream -/
theorem ask_orderly (stream : Stream) (r : Handle.Request) :
    Orderly (io (Context.ask stream r) : Host (Context σ μ) C V Unit) :=
  io_orderly fun _ => ⟨_, Context.Writes.start.ask stream r⟩

end Host

namespace Script

variable [Device (σ × μ)]

theorem Effect.perform_orderly (e : Effect) : Host.Orderly (e.perform : Host (Context σ μ) Code Value Unit) := by
  cases e with
  | out s => exact Host.ask_orderly .stdout (.write s)
  | outLine s => exact Host.ask_orderly .stdout (.writeLine s)
  | err s => exact Host.ask_orderly .stderr (.write s)
  | errLine s => exact Host.ask_orderly .stderr (.writeLine s)
  | flush => exact Host.ask_orderly .stdout .flush
  | request code => exact fun s => ⟨[], Context.Writes.start.other (fun stream => by cases stream <;> rfl) rfl⟩
  | read =>
    refine Host.Orderly.bind (Host.io_orderly fun _ => ?_) fun line => Host.ask_orderly .stdout (.writeLine _)
    exact ⟨[], Context.Writes.start.other (fun stream => by cases stream <;> rfl) rfl⟩
  | fail e => exact Host.orderly_of_world fun s => rfl
  | abort text => exact Host.orderly_of_world fun s => rfl

/-- scripts write by requests only -/
theorem dialect_orderly (fuel : Nat) : (dialect fuel : Dialect σ Code Value Primitive μ).Orderly := by
  intro p
  cases p with
  | effect e => exact e.perform_orderly.bind fun _ => Host.orderly_of_world fun s => rfl
  | yield how v =>
    refine Host.orderly_of_world fun s => ?_
    cases how <;> rfl

end Script

/-! ## The end -/

namespace Dialect

variable [Device (σ × μ)]

/-- **How a program ends.** It returns just when its execution ends without an abort. Then standard error and after it
standard output have been flushed, and an evaluation error has been reported before a flush error, that of standard
error before that of standard output. If both flushes succeed, no bytes are left in a buffer, and whatever requests have
led from the first context to the one in which the execution ended, all that they wrote has reached its device, request
by request, after what was in the buffer at first. If the steps of the program write by requests, there are such
requests. -/
theorem program_ends_flushed (L : Dialect σ C V P μ) (main : Ref) (s : Session (Context σ μ) C V) :
    (∀ result s', L.runProgram main s = .ok result s' ↔ ∃ outcome s₁, L.Executes main s outcome s₁ ∧
      let err := s₁.world.onStderr Handle.flush
      let out := err.2.onStdout Handle.flush
      s' = ⟨s₁.heap, s₁.events, out.2⟩ ∧ result = verdict s₁.world outcome err.1 out.1) ∧
    ∀ outcome s₁, L.Executes main s outcome s₁ →
      (L.Orderly → ∃ log, Context.Writes s.world log s₁.world) ∧
      let err := s₁.world.onStderr Handle.flush
      let out := err.2.onStdout Handle.flush
      err.1 = .ok () → out.1 = .ok () →
        ∀ stream, (out.2.handle stream).buffer = [] ∧
          (out.2.handle stream).delivered = (s₁.world.handle stream).account ∧
          ∀ log, Context.Writes s.world log s₁.world → ∃ pieces,
            List.Forall₂ Handle.Entry.Covers (stream.own log) pieces ∧
            (out.2.handle stream).delivered = (s.world.handle stream).account ++ pieces.flatten ∧
            ∀ accepted : σ → Bytes, Device.Records (fun device : σ × μ => accepted device.1) →
              accepted (out.2.handle stream).device =
                accepted (s.world.handle stream).device ++ ((s.world.handle stream).buffer ++ pieces.flatten) := by
  refine ⟨fun result s' => runProgram_iff, fun outcome s₁ hexecutes => ⟨fun horderly => ?_, ?_⟩⟩
  · obtain ⟨log, hwrites⟩ := horderly.execute main s
    rw [hexecutes.ending] at hwrites
    exact ⟨log, hwrites⟩
  · intro err out herr hout stream
    obtain ⟨hempty, hdelivered⟩ := Context.delivered_flushed herr hout stream
    refine ⟨hempty, hdelivered, fun log hwrites => ?_⟩
    obtain ⟨pieces, hcovers, hgains⟩ := hwrites.gains stream
    have hall := hgains.trans (s₁.world.flushes_gain stream)
    rw [List.append_nil] at hall
    exact ⟨pieces, hcovers, hall.emptied hempty⟩

end Dialect

/-- a screen on which the output of both handles appears -/
structure Screen where
  shown : Bytes

/-- a handle's own view of a screen: what went through this handle -/
structure Pane where
  kept : Bytes

instance : Device (Pane × Screen) where
  write bytes device := (.ok bytes.length, ⟨device.1.kept ++ bytes⟩, ⟨device.2.shown ++ bytes⟩)
  flush device := (.ok (), device)
  patience _ := 0

theorem Pane.records : Device.Records fun device : Pane × Screen => device.1.kept := by
  refine ⟨fun bytes device n device' hwrite => ?_, fun bytes device e device' hwrite => ?_, fun _ => rfl⟩
  · cases hwrite
    rw [List.take_length]
  · cases hwrite

namespace Dialect

/-- a script writes `o` to standard output and then `e` to standard error; each device gets its own, and on the screen
`e` appears first -/
theorem program_ends_flushed_screen :
    ∃ (s s' : Session (Context Pane Screen) Script.Code Script.Value) (c : Context Pane Screen),
      (Script.dialect 9).runProgram 1 s = .ok (.ok (some 3)) s' ∧ s'.world.medium.shown = [101, 111] ∧
      Context.Writes s.world [(.stdout, .write "o", .ok ()), (.stderr, .write "e", .ok ())] c ∧
      s'.world.stdout.device.kept = [111] ∧ s'.world.stderr.device.kept = [101] := by
  let write : Action Script.Primitive :=
    .bind (.primitive (.effect (.out "o"))) fun _ => .bind (.primitive (.effect (.err "e"))) fun _ => .pure 0
  let c : Context Pane Screen :=
    ⟨Settings.memory, .fresh "stdout" false 8 ⟨[]⟩, .fresh "stderr" false 8 ⟨[]⟩, ⟨[]⟩, [], .initial⟩
  let s : Session (Context Pane Screen) Script.Code Script.Value :=
    ⟨#[.value (.result (.int 3)), .value (.action write)], [], c⟩
  let c₁ : Context Pane Screen := ((c.ask .stdout (.write "o")).2.ask .stderr (.write "e")).2
  let log : List Stream.Entry := [(.stdout, .write "o", .ok ()), (.stderr, .write "e", .ok ())]
  have hwrites : Context.Writes c log c₁ := (Context.Writes.start.ask .stdout (.write "o")).ask .stderr (.write "e")
  obtain ⟨heap, events, hattempt⟩ : ∃ heap events,
      Host.attempt ((Script.dialect 9).execute 1) s = .ok (.ok (some 3)) ⟨heap, events, c₁⟩ := ⟨_, _, rfl⟩
  have hexecutes := executes_iff.2 hattempt
  have herr : (c₁.onStderr Handle.flush).1 = .ok () := rfl
  have hout : ((c₁.onStderr Handle.flush).2.onStdout Handle.flush).1 = .ok () := rfl
  have hshown : ((c₁.onStderr Handle.flush).2.onStdout Handle.flush).2.medium.shown = [101, 111] := by decide +kernel
  obtain ⟨hends, hflushed⟩ := program_ends_flushed (Script.dialect 9) 1 s
  have hreturned := (hends _ _).2 ⟨_, _, hexecutes, rfl, rfl⟩
  have hreached := (hflushed _ _ hexecutes).2 herr hout
  rw [herr, hout] at hreturned
  dsimp only at hreturned hreached
  generalize ((c₁.onStderr Handle.flush).2.onStdout Handle.flush).2 = c₂ at hshown hreturned hreached
  have hkept (stream : Stream) :
      (c₂.handle stream).device.kept = (stream.own log).flatMap fun entry => entry.1.bytes := by
    obtain ⟨-, -, hall⟩ := hreached stream
    obtain ⟨pieces, hcovers, -, haccepted⟩ := hall log hwrites
    rw [haccepted Pane.kept Pane.records, Handle.flatten_of_covers hcovers (by cases stream <;> simp [log, Stream.own])]
    cases stream <;> rfl
  exact ⟨s, ⟨heap, events, c₂⟩, c₁, hreturned, hshown, hwrites, (hkept .stdout).trans (by decide +kernel),
    (hkept .stderr).trans (by decide +kernel)⟩

end Dialect

end ByNeed
