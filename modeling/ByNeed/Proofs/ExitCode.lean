/-
The exit code of a session.

Programs ask the registry for exit codes as they go. However many of them run on one context, and whether they succeed,
fail or abort, the registry ends up with the highest code asked for that is in range, and shutting down does not change
it.
- `Highest.request`, `Highest.requests`: one request, and any number of them.
- `Requests.run_registry`, `Requests.runProgram_registry`: an action and a program make requests up to where they end.
- `session_exit_code`: programs and shutdowns, one after another.
-/
import Mathlib.Order.Bounds.Basic
import ByNeed.Script
import ByNeed.Proofs.Demo.Jobs

namespace ByNeed

variable {σ μ C V P α β : Type}

/-! ## The registry -/

namespace Registry

/-- the highest of the codes between 0 and 256, both excluded, or 0 if there is none -/
def Highest (codes : List Int32) (g : Registry) : Prop :=
  IsGreatest {n : Int | n = 0 ∨ ∃ code ∈ codes, code.toInt = n ∧ 0 < n ∧ n < 256} g.code.toInt

variable {codes codes' : List Int32} {g g' : Registry}

theorem highest_initial : Highest [] .initial := by
  refine ⟨.inl rfl, ?_⟩
  rintro n (rfl | ⟨code, hcode, -⟩)
  · exact le_rfl
  · cases hcode

theorem Highest.range (hhighest : Highest codes g) : 0 ≤ g.code.toInt ∧ g.code.toInt ≤ 255 := by
  refine ⟨hhighest.2 (.inl rfl), ?_⟩
  rcases hhighest.1 with hzero | ⟨code, -, -, -, hbelow⟩ <;> omega

/-- only which codes there are matters, and not their order -/
theorem Highest.unique (hhighest : Highest codes g) (hhighest' : Highest codes' g')
    (hsame : ∀ code, code ∈ codes ↔ code ∈ codes') : g = g' := by
  unfold Highest at hhighest
  simp only [hsame] at hhighest
  have hequal : g.code = g'.code := Int32.toInt_inj.1 (hhighest.unique hhighest')
  cases g
  cases g'
  exact congrArg mk hequal

/-- a request is for a higher code in range, or it changes nothing -/
theorem request_cases (g : Registry) (code : Int32) :
    (g.code.toInt < code.toInt ∧ code.toInt < 256 ∧ g.request code = ⟨code⟩) ∨
      ((code.toInt ≤ g.code.toInt ∨ 256 ≤ code.toInt) ∧ g.request code = g) := by
  have hbound : (256 : Int32).toInt = 256 := rfl
  have haccepts : (g.code < code ∧ code < 256) ↔ g.code.toInt < code.toInt ∧ code.toInt < 256 := by
    rw [Int32.lt_iff_toInt_lt, Int32.lt_iff_toInt_lt, hbound]
  by_cases haccepted : g.code < code ∧ code < 256
  · obtain ⟨hhigher, hbelow⟩ := haccepts.1 haccepted
    exact .inl ⟨hhigher, hbelow, if_pos haccepted⟩
  · have hrefused := mt haccepts.2 haccepted
    exact .inr ⟨by omega, if_neg haccepted⟩

/-- a request is counted if it is in range, and cannot matter if it is not -/
theorem Highest.request (hhighest : Highest codes g) (code : Int32) : Highest (codes ++ [code]) (g.request code) := by
  have hleast := hhighest.range.1
  obtain ⟨hholds, hbounds⟩ := hhighest
  rcases g.request_cases code with ⟨hhigher, hbelow, hsame⟩ | ⟨hrefused, hsame⟩
  · rw [hsame]
    refine ⟨.inr ⟨code, List.mem_append_right _ (List.mem_singleton_self code), rfl, hleast.trans_lt hhigher, hbelow⟩,
      ?_⟩
    rintro n (rfl | ⟨asked, hasked, rfl, hpositive, hsmall⟩)
    · exact (hleast.trans_lt hhigher).le
    · rcases List.mem_append.1 hasked with hearlier | hnow
      · exact (hbounds (.inr ⟨asked, hearlier, rfl, hpositive, hsmall⟩)).trans hhigher.le
      · rw [List.mem_singleton.1 hnow]
  · rw [hsame]
    refine ⟨?_, ?_⟩
    · rcases hholds with hzero | ⟨asked, hasked, hrest⟩
      · exact .inl hzero
      · exact .inr ⟨asked, List.mem_append_left _ hasked, hrest⟩
    · rintro n (rfl | ⟨asked, hasked, rfl, hpositive, hsmall⟩)
      · exact hleast
      · rcases List.mem_append.1 hasked with hearlier | hnow
        · exact hbounds (.inr ⟨asked, hearlier, rfl, hpositive, hsmall⟩)
        · rw [List.mem_singleton.1 hnow] at hsmall ⊢
          omega

theorem Highest.requests (hhighest : Highest codes g) (more : List Int32) :
    Highest (codes ++ more) (more.foldl Registry.request g) := by
  induction more generalizing codes g with
  | nil =>
    rw [List.append_nil]
    exact hhighest
  | cons code more ih =>
    rw [List.append_cons]
    exact ih (hhighest.request code)

theorem le_requests (g : Registry) (codes : List Int32) :
    g.code.toInt ≤ (codes.foldl Registry.request g).code.toInt := by
  induction codes generalizing g with
  | nil => exact le_rfl
  | cons code codes ih =>
    refine le_trans ?_ (ih (g.request code))
    rcases g.request_cases code with ⟨hhigher, -, hsame⟩ | ⟨-, hsame⟩
    · rw [hsame]
      exact hhigher.le
    · rw [hsame]

end Registry

/-! ## Procedures that ask for nothing -/

namespace Host

variable {W : Type}

/-- what a procedure leaves that does one thing after another -/
theorem ending_bind (x : Host W C V α) (f : α → Host W C V β) (s : Session W C V) :
    ending ((x >>= f) s) = match x s with
      | .ok a s₁ => ending (f a s₁)
      | .error _ s₁ => s₁ := by
  cases hx : x s with
  | ok a s₁ => rw [bind_ok hx]
  | error stop s₁ =>
    rw [bind_error hx]
    rfl

theorem ending_attempt (x : Host W C V α) (s : Session W C V) : ending (attempt x s) = ending (x s) := by
  cases hx : x s with
  | ok a s₁ => rw [attempt_ok hx]; rfl
  | error stop s₁ => cases stop <;> simp only [attempt, hx] <;> rfl

/-- the procedure leaves the registry alone -/
def Quiet (x : Host (Context σ μ) C V α) : Prop := ∀ s, (ending (x s)).world.registry = s.world.registry

variable {x : Host (Context σ μ) C V α} {f : α → Host (Context σ μ) C V β}

theorem Quiet.bind (hfirst : Quiet x) (hrest : ∀ a, Quiet (f a)) : Quiet (x >>= f) := by
  intro s
  have hbefore := hfirst s
  rw [ending_bind]
  cases hx : x s with
  | ok a s₁ =>
    rw [hx] at hbefore
    exact (hrest a s₁).trans hbefore
  | error stop s₁ =>
    rw [hx] at hbefore
    exact hbefore

theorem quiet_of_world (hsame : ∀ s, (ending (x s)).world = s.world) : Quiet x :=
  fun s => congrArg Context.registry (hsame s)

theorem io_quiet {op : Context σ μ → Except IoError α × Context σ μ} (hkeeps : ∀ c, (op c).2.registry = c.registry) :
    Quiet (io op : Host (Context σ μ) C V α) := by
  intro s
  rw [io_eq]
  cases h : (op s.world).1 <;> exact hkeeps s.world

theorem ask_quiet [Device (σ × μ)] (stream : Stream) (r : Handle.Request) :
    Quiet (io (Context.ask stream r) : Host (Context σ μ) C V Unit) :=
  io_quiet fun c => (Context.ask_rest stream r c).2.2

theorem readLine_quiet : Quiet (io Context.readLine : Host (Context σ μ) C V (Option String)) := io_quiet fun _ => rfl

end Host

/-! ## Shutting down -/

namespace Context

variable [Device (σ × μ)]

theorem flushAll_registry (c : Context σ μ) : c.flushAll.2.registry = c.registry := by
  rw [(Dialect.flushAll_verdict c none).1]
  exact (ask_rest .stdout .flush _).2.2.trans (ask_rest .stderr .flush c).2.2

/-- shutting down, any number of times -/
theorem shutdowns_registry (c : Context σ μ) (statuses : List (Option Int32)) :
    (statuses.foldl (fun c status => (c.shutdown status).2) c).registry = c.registry := by
  induction statuses generalizing c with
  | nil => rfl
  | cons status statuses ih => exact (ih _).trans (flushAll_registry c)

/-- if the flushes succeed, there is an exit code: the explicit status, or else what the registry holds -/
theorem shutdown_code {c : Context σ μ} (hflushed : c.flushAll.1 = .ok ()) (status : Option Int32) :
    (c.shutdown status).1 = .ok (status.getD c.registry.code) := by
  have hcode : (c.shutdown status).1 = c.flushAll.1.map fun () => status.getD c.flushAll.2.registry.code := rfl
  rw [hcode, hflushed, flushAll_registry]
  rfl

end Context

/-! ## What programs ask for -/

/-- which codes the primitive steps of a language ask for, in order, from the sessions in which they are performed; this
is all that they do to the registry -/
structure Dialect.Requests (L : Dialect σ C V P μ) where
  codes : P → Session (Context σ μ) C V → List Int32
  registry : ∀ p s, (Host.ending (L.perform p s)).world.registry = (codes p s).foldl Registry.request s.world.registry

namespace Dialect.Requests

variable {L : Dialect σ C V P μ} (R : L.Requests)

/-- the codes that an action asks for, up to the step that fails -/
def ofAction : Action P → Session (Context σ μ) C V → List Int32
  | .pure _, _ => []
  | .fail _, _ => []
  | .primitive p, s => R.codes p s
  | .bind first next, s => ofAction first s ++
    match first.run L.perform s with
    | .ok r s₁ => ofAction (next r) s₁
    | .error _ _ => []

theorem run_registry (a : Action P) (s : Session (Context σ μ) C V) :
    (Host.ending (a.run L.perform s)).world.registry = (R.ofAction a s).foldl Registry.request s.world.registry := by
  induction a generalizing s with
  | pure r => rfl
  | fail e => rfl
  | primitive p => exact R.registry p s
  | bind first next ihFirst ihNext =>
    have hbefore := ihFirst s
    rw [Action.run, Host.ending_bind, ofAction, List.foldl_append, ← hbefore]
    cases first.run L.perform s with
    | ok r s₁ => exact ihNext r s₁
    | error stop s₁ => rfl

/-- the codes that a program asks for; if its entry does not give an action, there are none -/
def ofProgram (main : Ref) (s : Session (Context σ μ) C V) : List Int32 :=
  match Host.force L.engine main s with
  | .error _ _ => []
  | .ok v s₁ =>
    match L.action? v with
    | none => []
    | some a => R.ofAction a s₁

theorem execute_registry (main : Ref) (s : Session (Context σ μ) C V) :
    (Host.ending (L.execute main s)).world.registry = (R.ofProgram main s).foldl Registry.request s.world.registry := by
  -- only the action between them touches the world: the entry and the result are demanded of cells
  have hentered := Host.force_world L.engine main s
  rw [Dialect.execute, Host.ending_bind, ofProgram]
  cases hentry : Host.force L.engine main s with
  | error stop s₁ =>
    rw [hentry] at hentered
    exact congrArg Context.registry hentered
  | ok v s₁ =>
    rw [hentry] at hentered
    have hentered : s₁.world = s.world := hentered
    dsimp only
    cases L.action? v with
    | none => exact congrArg Context.registry hentered
    | some a =>
      have hran := R.run_registry a s₁
      dsimp only
      rw [← hentered, ← hran, Host.ending_bind]
      cases a.run L.perform s₁ with
      | error stop s₂ => rfl
      | ok r s₂ =>
        refine congrArg Context.registry (Host.bind_world (Host.forceDeep_world L.engine r) (fun v s => ?_) s₂)
        rfl

variable [Device (σ × μ)]

/-- **A program makes the requests of its action**, however it ends; flushing makes none. -/
theorem runProgram_registry (main : Ref) (s : Session (Context σ μ) C V) :
    (Host.ending (L.runProgram main s)).world.registry =
      (R.ofProgram main s).foldl Registry.request s.world.registry := by
  have hexecuted := R.execute_registry main s
  rw [← Host.ending_attempt] at hexecuted
  rw [← hexecuted, Dialect.runProgram, Host.ending_bind]
  cases Host.attempt (L.execute main) s with
  | error stop s₁ => rfl
  | ok outcome s₁ =>
    refine Eq.trans ?_ (Context.flushAll_registry s₁.world)
    cases outcome <;> rfl

end Dialect.Requests

/-! ## Two languages -/

section

variable [Device (σ × μ)]

namespace Script

def Primitive.codes : Primitive → List Int32
  | effect (.request code) => [code]
  | _ => []

theorem Primitive.perform_registry (p : Primitive) (s : Session (Context σ μ) Code Value) :
    (Host.ending (p.perform s)).world.registry = p.codes.foldl Registry.request s.world.registry := by
  have hunit : ∀ _ : Unit, Host.Quiet (Host.ready (.result .unit) : Host (Context σ μ) Code Value Ref) :=
    fun _ => Host.quiet_of_world fun _ => rfl
  cases p with
  | yield how v => cases how <;> rfl
  | effect e =>
    cases e with
    | out text => exact (Host.ask_quiet .stdout (.write text)).bind hunit s
    | outLine text => exact (Host.ask_quiet .stdout (.writeLine text)).bind hunit s
    | err text => exact (Host.ask_quiet .stderr (.write text)).bind hunit s
    | errLine text => exact (Host.ask_quiet .stderr (.writeLine text)).bind hunit s
    | flush => exact (Host.ask_quiet .stdout .flush).bind hunit s
    | request code => rfl
    | read => exact (Host.readLine_quiet.bind fun line => Host.ask_quiet .stdout (.writeLine _)).bind hunit s
    | fail e => rfl
    | abort text => rfl

/-- scripts ask for codes by their effects -/
def requests (fuel : Nat) : (dialect fuel : Dialect σ Code Value Primitive μ).Requests :=
  ⟨fun p _ => p.codes, Primitive.perform_registry⟩

end Script

namespace Demo

def Job.codes : Job → List Int32
  | request codes => codes
  | _ => []

theorem writeLine_quiet (text : String) : Host.Quiet (writeLine text : Host (Context σ μ) Code Value Unit) :=
  Host.ask_quiet .stdout (.writeLine text)

theorem printNumbered_quiet (E : Engine Empty Code Value) (vs : List Value) :
    Host.Quiet (printNumbered E vs : Host (Context σ μ) Code Value Unit) := by
  induction vs with
  | nil => exact fun _ => rfl
  | cons v vs ih =>
    have happly (f : Prim) (r : Ref) : Host.Quiet (applyTo f r : Host (Context σ μ) Code Value Ref) := fun _ => rfl
    have hforce (r : Ref) : Host.Quiet (Host.force E r : Host (Context σ μ) Code Value Value) :=
      Host.quiet_of_world (Host.force_world E r)
    refine Host.Quiet.bind (fun _ => rfl) fun entry => ?_
    refine (happly .index entry).bind fun index => (hforce index).bind fun i => ?_
    refine (happly .element entry).bind fun element => (hforce element).bind fun p => ?_
    exact (writeLine_quiet _).bind fun _ => ih

theorem echoLines_quiet (bound : Nat) : Host.Quiet (echoLines bound : Host (Context σ μ) Code Value Unit) := by
  induction bound with
  | zero => exact fun _ => rfl
  | succ bound ih =>
    refine Host.readLine_quiet.bind fun line => ?_
    cases line with
    | none => exact fun _ => rfl
    | some line => exact (writeLine_quiet _).bind fun _ => ih

theorem Job.perform_registry (E : Engine Empty Code Value) (job : Job) (s : Session (Context σ μ) Code Value) :
    (Host.ending (job.perform E s)).world.registry = job.codes.foldl Registry.request s.world.registry := by
  have hunit : ∀ _ : Unit, Host.Quiet (Host.ready .unit : Host (Context σ μ) Code Value Ref) := fun _ _ => rfl
  have htake (n : Nat) (xs : Ref) : Host.Quiet (take E n xs : Host (Context σ μ) Code Value (List Value)) :=
    Host.quiet_of_world (takeFrom_world E [] n xs)
  cases job with
  | request codes => exact (List.foldl_hom Context.registry fun _ _ => rfl).symm
  | primes count =>
    refine Host.Quiet.bind (fun _ => rfl) (fun numbers => ?_) s
    refine Host.Quiet.bind (fun _ => rfl) fun primes => Host.Quiet.bind (fun _ => rfl) fun entries => ?_
    exact (htake count entries).bind fun beginning => (printNumbered_quiet E beginning).bind hunit
  | fib n =>
    rw [perform]
    split_ifs
    · rfl
    · refine Host.Quiet.bind (fun _ => rfl) (fun fibs => (htake (n + 1) fibs).bind fun beginning => ?_) s
      cases beginning.getLast? with
      | none => exact fun _ => rfl
      | some v => exact (writeLine_quiet _).bind hunit
  | ones count =>
    refine Host.Quiet.bind (fun _ => rfl) (fun ones => (htake count ones).bind fun beginning => ?_) s
    exact (writeLine_quiet _).bind hunit
  | echo =>
    have hlook : Host.Quiet (Host.world : Host (Context σ μ) Code Value (Context σ μ)) := fun _ => rfl
    exact hlook.bind (fun c => (echoLines_quiet (lineBound c.stdin)).bind hunit) s

/-- of the demonstration programs only one asks for codes -/
def requests (fuel : Nat) : (dialect fuel : Dialect σ Code Value Job μ).Requests :=
  ⟨fun job _ => job.codes, Job.perform_registry (engine fuel)⟩

end Demo

end

/-! ## Sessions -/

namespace Dialect.Requests

variable [Device (σ × μ)] {L : Dialect σ C V P μ}

/-- what a session goes through, with the codes that are asked for on the way: programs are run, whatever comes of them,
codes are asked for in between, and the context is shut down, with a status or without. Whatever else happens leaves the
registry alone. -/
inductive History (R : L.Requests) (s : Session (Context σ μ) C V) : List Int32 → Session (Context σ μ) C V → Prop where
  | start : History R s [] s
  | run {codes : List Int32} {s₁ : Session (Context σ μ) C V} (hbefore : History R s codes s₁) (main : Ref) :
      History R s (codes ++ R.ofProgram main s₁) (Host.ending (L.runProgram main s₁))
  | request {codes : List Int32} {s₁ : Session (Context σ μ) C V} (hbefore : History R s codes s₁) (code : Int32) :
      History R s (codes ++ [code]) ⟨s₁.heap, s₁.events, s₁.world.request code⟩
  | shutdown {codes : List Int32} {s₁ : Session (Context σ μ) C V} (hbefore : History R s codes s₁)
      (status : Option Int32) : History R s codes ⟨s₁.heap, s₁.events, (s₁.world.shutdown status).2⟩
  | other {codes : List Int32} {s₁ s₂ : Session (Context σ μ) C V} (hbefore : History R s codes s₁)
      (hsame : s₂.world.registry = s₁.world.registry) : History R s codes s₂

variable {R : L.Requests} {s s' : Session (Context σ μ) C V} {codes : List Int32}

theorem History.registry (hhistory : R.History s codes s') :
    s'.world.registry = codes.foldl Registry.request s.world.registry := by
  induction hhistory with
  | start => rfl
  | run hbefore main ih => rw [R.runProgram_registry, List.foldl_append, ih]
  | request hbefore code ih =>
    rw [List.foldl_append, ← ih]
    rfl
  | shutdown hbefore status ih => exact (Context.flushAll_registry _).trans ih
  | other hbefore hsame ih => exact hsame.trans ih

/-- **The exit code of a session.** Let a session begin with a context in which no code has been asked for, and let any
number of programs run, whatever comes of them. Then the registry holds the highest of the codes that were asked for and
that are in range, whatever their order. After each request on the way it has held the highest so far, never less than
before, and it stays between 0 and 255. However often the context is shut down, the registry stays as it is: if the
flushes succeed, the exit code is the explicit status, or else what the registry holds. -/
theorem session_exit_code (R : L.Requests) (hfresh : s.world.registry = .initial) (hhistory : R.History s codes s') :
    s'.world.registry = codes.foldl Registry.request .initial ∧ Registry.Highest codes s'.world.registry ∧
    (∀ t codes' t', t.world.registry = .initial → R.History t codes' t' → codes'.Perm codes →
      t'.world.registry = s'.world.registry) ∧
    (∀ earlier later, codes = earlier ++ later →
      let g := earlier.foldl Registry.request .initial
      Registry.Highest earlier g ∧ 0 ≤ g.code.toInt ∧ g.code.toInt ≤ s'.world.registry.code.toInt ∧
        s'.world.registry.code.toInt ≤ 255) ∧
    ∀ (statuses : List (Option Int32)) (status : Option Int32),
      let c := statuses.foldl (fun c status => (c.shutdown status).2) s'.world
      (c.shutdown status).2.registry = s'.world.registry ∧
      (c.flushAll.1 = .ok () → (c.shutdown status).1 = .ok (status.getD s'.world.registry.code)) := by
  have hreached : ∀ {t codes t'}, t.world.registry = .initial → R.History t codes t' →
      t'.world.registry = codes.foldl Registry.request .initial := by
    intro t codes t' hfresh hhistory
    rw [hhistory.registry, hfresh]
  have hasked := hreached hfresh hhistory
  have hhighest (codes : List Int32) : Registry.Highest codes (codes.foldl Registry.request .initial) :=
    Registry.highest_initial.requests codes
  refine ⟨hasked, hasked ▸ hhighest codes, ?_, ?_, ?_⟩
  · intro t codes' t' hfresh' hhistory' hperm
    rw [hasked, hreached hfresh' hhistory']
    exact (hhighest codes').unique (hhighest codes) fun code => hperm.mem_iff
  · intro earlier later hsplit g
    refine ⟨hhighest earlier, (hhighest earlier).range.1, ?_, ?_⟩
    · rw [hasked, hsplit, List.foldl_append]
      exact g.le_requests later
    · rw [hasked]
      exact (hhighest codes).range.2
  · intro statuses status c
    have hsame : c.registry = s'.world.registry := Context.shutdowns_registry s'.world statuses
    refine ⟨(Context.flushAll_registry c).trans hsame, fun hflushed => ?_⟩
    rw [Context.shutdown_code hflushed, hsame]

/-- asks for codes, one after another, and goes on with `last` -/
def asking (last : Action Script.Primitive) : List Int32 → Action Script.Primitive
  | [] => last
  | code :: codes => .bind (.primitive (.effect (.request code))) fun _ => asking last codes

/-- three scripts on one context: the first asks for 7 and 300 and fails, so that it does not ask for 200; the second
asks for -3 and 9 and aborts; the third asks for 2 -/
def threeScripts : Session (Context Target) Script.Code Script.Value :=
  ⟨#[.value (.result .unit),
    .value (.action (asking (.bind (.fail (.user "no")) fun _ => asking (.pure 0) [200]) [7, 300])),
    .value (.action (asking (.primitive (.effect (.abort "stop"))) [-3, 9])),
    .value (.action (asking (.pure 0) [2]))], [], .fresh ⟨true, 1, .warn, true⟩ [] .memory .memory⟩

/-- a program that asks for 300, 9, -1 and 5 -/
def oneProgram : Session (Context Target) Demo.Code Demo.Value :=
  ⟨#[.value (.action (.primitive (.request [300, 9, -1, 5])))], [], .fresh .default [] .memory .memory⟩

/-- After the three scripts 256 is asked for besides. The exit code is 9 in both sessions, and that of the first one is
still 9 after a shutdown with status 4. -/
theorem session_exit_code_nine :
    (threeScripts.world.registry = .initial ∧ ∃ s',
      (Script.requests 9).History threeScripts [7, 300, -3, 9, 2, 256] s' ∧ s'.world.registry = ⟨9⟩ ∧
      (s'.world.shutdown (some 4)).1 = .ok 4 ∧ ((s'.world.shutdown (some 4)).2.shutdown none).1 = .ok 9) ∧
    oneProgram.world.registry = .initial ∧ ∃ s',
      (Demo.requests 9).History oneProgram [300, 9, -1, 5] s' ∧ s'.world.registry = ⟨9⟩ := by
  refine ⟨⟨rfl, ?_⟩, rfl, ?_⟩
  · obtain ⟨codes, s', hhistory, rfl, hflushed, hflushed'⟩ :
        ∃ codes s', (Script.requests 9).History threeScripts codes s' ∧ codes = [7, 300, -3, 9, 2, 256] ∧
          s'.world.flushAll.1 = .ok () ∧ (s'.world.shutdown (some 4)).2.flushAll.1 = .ok () :=
      ⟨_, _, (((History.start.run 1).run 2).run 3).request 256, by decide +kernel, by decide +kernel, by decide +kernel⟩
    obtain ⟨hasked, -, -, -, hcodes⟩ := session_exit_code (Script.requests 9) rfl hhistory
    have hnine : s'.world.registry = ⟨9⟩ := hasked.trans (by decide)
    rw [hnine] at hcodes
    exact ⟨s', hhistory, hnine, (hcodes [] (some 4)).2 hflushed, (hcodes [some 4] none).2 hflushed'⟩
  · obtain ⟨codes, s', hhistory, rfl⟩ :
        ∃ codes s', (Demo.requests 9).History oneProgram codes s' ∧ codes = [300, 9, -1, 5] :=
      ⟨_, _, History.start.run 0, by decide +kernel⟩
    obtain ⟨hasked, -⟩ := session_exit_code (Demo.requests 9) rfl hhistory
    exact ⟨s', hhistory, hasked.trans (by decide)⟩

end Dialect.Requests

end ByNeed
