/-
Output that is kept.

A willing device, such as memory, takes all that it is offered and flushes without fail. A program whose output goes to
willing devices cannot fail on it, and what it has written is known to the byte.
- `Request.perform_succeeds`: no request fails, however the handle buffers.
- `after_account`, `after_registry`: what a sequence of acts leaves in a context.
- `runProgram_captured`: the end of a program adds nothing to this, and takes nothing away.
-/
import ByNeed.Proofs.Io.Closing

namespace ByNeed

variable {σ μ C V P α β : Type}

/-! ## Willing devices -/

/-- the device takes all that it is offered, and flushes without fail -/
structure Device.Willing [Device σ] (device : σ) : Prop where
  write : ∀ bytes, Device.write bytes device = (.ok bytes.length, device)
  flush : Device.flush device = (.ok (), device)

theorem Target.memory_willing : Device.Willing (Target.memory, ()) := ⟨fun _ => rfl, rfl⟩

namespace Handle

variable [Device σ] {x y : M σ Unit}

theorem offer_willing {device : σ} (hwilling : Device.Willing device) (text : String) (bytes : Bytes) :
    offer text bytes device = ⟨.ok (), bytes, [], device⟩ := by
  cases bytes with
  | nil => rfl
  | cons b bytes =>
    have henough : effort (b :: bytes) device = bytes.length + Device.patience device + 2 := by
      rw [effort, List.length_cons]
      omega
    rw [offer, henough]
    simp [pour, hwilling.write]

/-- with a willing device the operation succeeds, and the device stays as it is -/
def Succeeds (x : M σ Unit) : Prop := ∀ h, Device.Willing h.device → ∃ h', x h = .ok () h' ∧ h'.device = h.device

theorem Succeeds.bind (hfirst : Succeeds x) (hsecond : Succeeds y) : Succeeds (x >>= fun _ => y) := by
  intro h hwilling
  obtain ⟨h₁, hx, hdevice₁⟩ := hfirst h hwilling
  obtain ⟨h₂, hy, hdevice₂⟩ := hsecond h₁ (by rwa [hdevice₁])
  exact ⟨h₂, (bind_ok hx).trans hy, hdevice₂.trans hdevice₁⟩

theorem Succeeds.get_bind {f : Handle σ → M σ Unit} (heach : ∀ h, Succeeds (f h)) : Succeeds (get >>= f) :=
  fun h hwilling => heach h h hwilling

theorem drain_succeeds : Succeeds (drain : M σ Unit) := by
  intro h hwilling
  rw [drain_eq, offer_willing hwilling]
  exact ⟨_, rfl, rfl⟩

theorem bypass_succeeds (bytes : Bytes) : Succeeds (bypass bytes : M σ Unit) := by
  intro h hwilling
  rw [bypass_eq, offer_willing hwilling]
  exact ⟨_, rfl, rfl⟩

theorem append_succeeds (bytes : Bytes) : Succeeds (append bytes : M σ Unit) := fun _ _ => ⟨_, rfl, rfl⟩

theorem writeBlock_succeeds (bytes : Bytes) : Succeeds (writeBlock bytes : M σ Unit) := by
  refine .get_bind fun h => ?_
  dsimp only
  split_ifs
  · exact append_succeeds bytes
  · exact drain_succeeds.bind (bypass_succeeds bytes)
  · exact drain_succeeds.bind (append_succeeds bytes)
  · exact bypass_succeeds bytes
  · exact append_succeeds bytes

theorem writeLines_succeeds (bytes : Bytes) : Succeeds (writeLines bytes : M σ Unit) := by
  refine .get_bind fun h => ?_
  cases splitLines bytes with
  | none =>
    dsimp only
    split_ifs
    · exact drain_succeeds.bind (writeBlock_succeeds bytes)
    · exact writeBlock_succeeds bytes
  | some parts =>
    dsimp only
    split_ifs
    · exact (bypass_succeeds parts.1).bind (writeBlock_succeeds parts.2)
    · exact (writeBlock_succeeds parts.1).bind (drain_succeeds.bind (writeBlock_succeeds parts.2))

theorem writeBytes_succeeds (bytes : Bytes) : Succeeds (writeBytes bytes : M σ Unit) := by
  refine .get_bind fun h => ?_
  split_ifs
  · exact writeLines_succeeds bytes
  · exact writeBlock_succeeds bytes

theorem writeAll_succeeds (texts : List String) : Succeeds (writeAll texts : M σ Unit) := by
  induction texts with
  | nil => exact fun h _ => ⟨h, rfl, rfl⟩
  | cons s texts ih => exact (writeBytes_succeeds (Text.encode s)).bind ih

theorem flush_succeeds : Succeeds (flush : M σ Unit) := by
  refine drain_succeeds.bind fun h hwilling => ⟨h, ?_, rfl⟩
  simp only [hwilling.flush]

/-- **No request fails** at a willing device. -/
theorem Request.perform_succeeds (r : Request) : Succeeds (r.perform : M σ Unit) := by
  cases r with
  | write s => exact writeBytes_succeeds (Text.encode s)
  | writeLine s => exact (writeBytes_succeeds (Text.encode s)).bind (writeBytes_succeeds [newline])
  | writeAll texts => exact writeAll_succeeds texts
  | flush => exact flush_succeeds

/-- so it adds all its bytes -/
theorem ask_willing {h : Handle σ} (hwilling : Device.Willing h.device) (r : Request) :
    (h.ask r).1 = .ok () ∧ (h.ask r).2.device = h.device ∧ (h.ask r).2.account = h.account ++ r.bytes := by
  obtain ⟨h', hok, hdevice⟩ := r.perform_succeeds h hwilling
  have hanswer : h.ask r = (.ok (), h') := by simp only [ask, hok]
  obtain ⟨piece, hcovers, hadds⟩ := ask_adds r h
  rw [hanswer] at hcovers hadds ⊢
  exact ⟨rfl, hdevice, hcovers.2 rfl ▸ hadds.account⟩

end Handle

/-! ## Acts -/

/-- what a program can do to its context -/
inductive Act where
  | ask (stream : Stream) (r : Handle.Request)
  | request (code : Int32)
  | readLine

namespace Act

/-- the bytes that an act writes to a stream -/
def bytes (stream : Stream) : Act → Bytes
  | ask asked r => if stream = asked then r.bytes else []
  | request _ => []
  | readLine => []

/-- the exit code that an act asks for -/
def code? : Act → Option Int32
  | ask _ _ => none
  | request code => some code
  | readLine => none

end Act

namespace Context

variable [Device (σ × μ)] {c : Context σ μ}

/-- both streams go to willing devices -/
def Captured (c : Context σ μ) : Prop := ∀ stream, Device.Willing ((c.handle stream).device, c.medium)

theorem fresh_captured (settings : Settings) (stdin : Source) :
    (fresh settings stdin Target.memory Target.memory).Captured := by
  intro stream
  cases stream <;> exact Target.memory_willing

def act (c : Context σ μ) : Act → Context σ μ
  | .ask stream r => (c.ask stream r).2
  | .request code => c.request code
  | .readLine => c.readLine.2

def after (c : Context σ μ) (acts : List Act) : Context σ μ := acts.foldl act c

theorem after_append (c : Context σ μ) (acts more : List Act) : c.after (acts ++ more) = (c.after acts).after more :=
  List.foldl_append

/-- a request changes nothing but its handle, and the medium -/
theorem ask_rest (stream : Stream) (r : Handle.Request) (c : Context σ μ) :
    (c.ask stream r).2.medium = (((c.handle stream).attach c.medium).ask r).2.device.2 ∧
      (c.ask stream r).2.stdin = c.stdin ∧ (c.ask stream r).2.registry = c.registry := by
  cases stream with
  | stdout =>
    simp only [ask, onStdout, Handle.ask, handle]
    cases r.perform (c.stdout.attach c.medium) <;> exact ⟨rfl, rfl, rfl⟩
  | stderr =>
    simp only [ask, onStderr, Handle.ask, handle]
    cases r.perform (c.stderr.attach c.medium) <;> exact ⟨rfl, rfl, rfl⟩

/-- a request made of a captured context succeeds, and adds its bytes to its stream -/
theorem ask_captured (hcaptured : c.Captured) (stream : Stream) (r : Handle.Request) :
    (c.ask stream r).1 = .ok () ∧ (c.ask stream r).2.Captured ∧ ∀ other,
      ((c.ask stream r).2.handle other).account = (c.handle other).account ++ (Act.ask stream r).bytes other := by
  obtain ⟨hanswer, hhandles⟩ := ask_handle stream r c
  obtain ⟨hok, hdevice, haccount⟩ := Handle.ask_willing (h := (c.handle stream).attach c.medium) (hcaptured stream) r
  refine ⟨hanswer.trans hok, fun other => ?_, fun other => ?_⟩
  · have hsame : ((c.ask stream r).2.handle other).device = (c.handle other).device := by
      rw [hhandles other]
      split_ifs with hother
      · rw [hother]
        exact congrArg Prod.fst hdevice
      · rfl
    rw [hsame, (ask_rest stream r c).1, hdevice]
    exact hcaptured other
  · rw [hhandles other, Act.bytes]
    split_ifs with hother
    · rw [hother]
      exact haccount
    · exact (List.append_nil _).symm

theorem captured_of_handles {c' : Context σ μ} (hcaptured : c.Captured) (hmedium : c'.medium = c.medium)
    (hsame : ∀ stream, c'.handle stream = c.handle stream) :
    c'.Captured ∧ ∀ stream, (c'.handle stream).account = (c.handle stream).account ++ [] := by
  refine ⟨fun stream => ?_, fun stream => ?_⟩
  · rw [hsame, hmedium]
    exact hcaptured stream
  · rw [hsame, List.append_nil]

/-- one act of a captured context -/
theorem act_captured (hcaptured : c.Captured) (a : Act) :
    (c.act a).Captured ∧ ∀ stream, ((c.act a).handle stream).account = (c.handle stream).account ++ a.bytes stream := by
  cases a with
  | ask stream r => exact (ask_captured hcaptured stream r).2
  | request code => exact captured_of_handles hcaptured rfl fun stream => by cases stream <;> rfl
  | readLine => exact captured_of_handles hcaptured rfl fun stream => by cases stream <;> rfl

theorem after_captured (hcaptured : c.Captured) (acts : List Act) : (c.after acts).Captured := by
  induction acts generalizing c with
  | nil => exact hcaptured
  | cons a acts ih => exact ih (act_captured hcaptured a).1

/-- **Acts write exactly their bytes**, in order. -/
theorem after_account (hcaptured : c.Captured) (acts : List Act) (stream : Stream) :
    ((c.after acts).handle stream).account = (c.handle stream).account ++ acts.flatMap (Act.bytes stream) := by
  induction acts generalizing c with
  | nil => exact (List.append_nil _).symm
  | cons a acts ih =>
    obtain ⟨hcaptured', haccount⟩ := act_captured hcaptured a
    calc ((c.after (a :: acts)).handle stream).account
      _ = ((c.act a).handle stream).account ++ acts.flatMap (Act.bytes stream) := ih hcaptured'
      _ = (c.handle stream).account ++ (a :: acts).flatMap (Act.bytes stream) := by
        rw [haccount stream, List.append_assoc, List.flatMap_cons]

/-- the registry has been asked for the codes of the acts, in order, and for nothing else -/
theorem after_registry (c : Context σ μ) (acts : List Act) :
    (c.after acts).registry = (acts.filterMap Act.code?).foldl Registry.request c.registry := by
  induction acts generalizing c with
  | nil => rfl
  | cons a acts ih =>
    refine (ih (c.act a)).trans ?_
    cases a with
    | ask stream r => rw [List.filterMap_cons_none rfl, act, (ask_rest stream r c).2.2]
    | request code => rfl
    | readLine => rfl

end Context

/-! ## Procedures that leave the world alone -/

namespace Host

variable {W : Type} {x : Host W C V α} {f : α → Host W C V β}

theorem bind_world (hfirst : ∀ s, (ending (x s)).world = s.world) (hrest : ∀ a s, (ending (f a s)).world = s.world)
    (s : Session W C V) : (ending ((x >>= f) s)).world = s.world := by
  have hbefore := hfirst s
  cases hx : x s with
  | error stop s₁ =>
    rw [hx] at hbefore
    rw [bind_error hx]
    exact hbefore
  | ok a s₁ =>
    rw [hx] at hbefore
    rw [bind_ok hx]
    exact (hrest a s₁).trans hbefore

theorem ofOutcome_world (o : Outcome α) (s : Session W C V) :
    (ending ((ofOutcome o : Host W C V α) s)).world = s.world := by cases o <;> rfl

theorem force_world (E : Engine Empty C V) (r : Ref) (s : Session W C V) : (ending (force E r s)).world = s.world :=
  bind_world (drive_world E _ _) ofOutcome_world s

theorem forceDeep_world (E : Engine Empty C V) (r : Ref) (s : Session W C V) :
    (ending (forceDeep E r s)).world = s.world :=
  bind_world (force_world E r) (fun _ => bind_world (drive_world E _ _) ofOutcome_world) s

end Host

/-! ## Procedures that act -/

namespace Host

variable [Device (σ × μ)] {x : Host (Context σ μ) C V α} {f : α → Host (Context σ μ) C V β}
  {s s' : Session (Context σ μ) C V}

/-- whatever a procedure does to its context, it does by acts -/
def Acts (x : Host (Context σ μ) C V α) : Prop := ∀ s, ∃ acts, (ending (x s)).world = s.world.after acts

theorem Acts.bind (hfirst : Acts x) (hrest : ∀ a, Acts (f a)) : Acts (x >>= f) := by
  intro s
  obtain ⟨acts, hworld⟩ := hfirst s
  cases hx : x s with
  | error stop s₁ =>
    rw [hx] at hworld
    rw [bind_error hx]
    exact ⟨acts, hworld⟩
  | ok a s₁ =>
    rw [hx] at hworld
    rw [bind_ok hx]
    obtain ⟨more, hworld'⟩ := hrest a s₁
    refine ⟨acts ++ more, ?_⟩
    rw [hworld', Context.after_append, ← hworld]
    rfl

theorem acts_of_world (hsame : ∀ s, (ending (x s)).world = s.world) : Acts x := fun s => ⟨[], hsame s⟩

omit [Device (σ × μ)] in
/-- an operation on the context succeeds, or fails as an evaluation does -/
theorem io_eq (op : Context σ μ → Except IoError α × Context σ μ) (s : Session (Context σ μ) C V) :
    (io op : Host (Context σ μ) C V α) s =
      match (op s.world).1 with
      | .ok a => .ok a ⟨s.heap, s.events, (op s.world).2⟩
      | .error e => .error (.failed (.io e.text)) ⟨s.heap, s.events, (op s.world).2⟩ := by
  have hread : Host.withWorld op s = .ok (op s.world).1 ⟨s.heap, s.events, (op s.world).2⟩ := rfl
  rw [io, bind_ok hread]
  cases (op s.world).1 <;> rfl

/-- an operation on the context that is one act -/
theorem io_acts {op : Context σ μ → Except IoError α × Context σ μ} (a : Act) (hacts : ∀ c, (op c).2 = c.act a) :
    Acts (io op : Host (Context σ μ) C V α) := by
  intro s
  refine ⟨[a], ?_⟩
  rw [io_eq, hacts s.world]
  cases (op s.world).1 <;> rfl

/-- a request of a captured context -/
theorem io_ask (hcaptured : s.world.Captured) (stream : Stream) (r : Handle.Request) :
    (io (Context.ask stream r) : Host (Context σ μ) C V Unit) s =
      .ok () ⟨s.heap, s.events, s.world.act (.ask stream r)⟩ := by
  rw [io_eq, (Context.ask_captured hcaptured stream r).1]
  rfl

end Host

/-! ## The end of a program -/

namespace Dialect

variable [Device (σ × μ)] {L : Dialect σ C V P μ} {main : Ref} {s s₁ : Session (Context σ μ) C V}

/-- **What is captured stays.** A program whose output is captured reports the outcome of its execution. All that was
written until then has been delivered, nothing else has been, and the rest of the session is as the execution left
it. -/
theorem runProgram_captured {outcome : Outcome (Option Int32)}
    (hexecuted : Host.attempt (L.execute main) s = .ok outcome s₁) (hcaptured : s₁.world.Captured) :
    ∃ c, L.runProgram main s = .ok (outcome.mapError .eval) ⟨s₁.heap, s₁.events, c⟩ ∧
      c.registry = s₁.world.registry ∧
      ∀ stream, (c.handle stream).buffer = [] ∧ (c.handle stream).delivered = (s₁.world.handle stream).account := by
  obtain ⟨herr, hcaptured', -⟩ := Context.ask_captured hcaptured .stderr .flush
  obtain ⟨hout, -, -⟩ := Context.ask_captured hcaptured' .stdout .flush
  have hreturned : L.runProgram main s = .ok (verdict s₁.world outcome (s₁.world.ask .stderr .flush).1
      ((s₁.world.ask .stderr .flush).2.ask .stdout .flush).1)
      ⟨s₁.heap, s₁.events, ((s₁.world.ask .stderr .flush).2.ask .stdout .flush).2⟩ := runProgram_of_attempt hexecuted
  refine ⟨_, hreturned.trans ?_, ?_, Context.delivered_flushed herr hout⟩
  · rw [herr, hout]
    cases outcome <;> rfl
  · rw [(Context.ask_rest .stdout .flush _).2.2, (Context.ask_rest .stderr .flush _).2.2]

end Dialect

end ByNeed
