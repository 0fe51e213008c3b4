/-
What a running program can touch outside its cells: two output handles, an input, and the exit code it asks for.

The devices of the two handles may share a medium, such as a terminal on which the output of both appears.
-/
import ByNeed.Settings
import ByNeed.Io.Target
import ByNeed.Io.Source
import ByNeed.Error

namespace ByNeed

/-!
## The exit code

Requests only ever raise it, and only below 256.
-/

/-- the highest code accepted so far -/
structure Registry where
  code : Int32
deriving DecidableEq, Repr

namespace Registry

def initial : Registry := ⟨0⟩

def request (g : Registry) (code : Int32) : Registry :=
  if g.code < code ∧ code < 256 then ⟨code⟩ else g

def text (g : Registry) : String := "ExitCodeRegistry \x7b code: " ++ toString g.code.toInt ++ " \x7d"

end Registry

/-! ## Contexts -/

/-- the outside of a program, with output to devices `σ` that share a medium `μ` -/
structure Context (σ : Type) (μ : Type := Unit) where
  settings : Settings
  stdout : Handle σ
  stderr : Handle σ
  medium : μ
  stdin : Source
  registry : Registry

inductive Failure where
  | eval (e : EvalError)
  /-- buffered output could not be passed on -/
  | flush (handle : String) (e : IoError)
deriving DecidableEq, Repr

def Failure.message : Failure → String
  | eval e => "uncaught failure: " ++ e.message
  | flush handle e => "cannot flush " ++ handle ++ ": " ++ e.text

/-- a handle whose device is at the medium -/
def Handle.attach {σ μ : Type} (h : Handle σ) (medium : μ) : Handle (σ × μ) :=
  ⟨h.name, h.lineBuffered, h.capacity, h.buffer, h.delivered, (h.device, medium)⟩

/-- a handle without the medium -/
def Handle.detach {σ μ : Type} (h : Handle (σ × μ)) : Handle σ :=
  ⟨h.name, h.lineBuffered, h.capacity, h.buffer, h.delivered, h.device.1⟩

namespace Context

variable {σ μ : Type}

def fresh (settings : Settings) (stdin : Source) (stdout stderr : σ) : Context σ :=
  ⟨settings, .fresh "stdout" settings.lineBuffered settings.capacity stdout,
    .fresh "stderr" settings.lineBuffered settings.capacity stderr, (), stdin, .initial⟩

def onStdout {α : Type} (op : Handle.M (σ × μ) α) (c : Context σ μ) : Except IoError α × Context σ μ :=
  match op (c.stdout.attach c.medium) with
  | .ok a h => (.ok a, { c with stdout := h.detach, medium := h.device.2 })
  | .error e h => (.error e, { c with stdout := h.detach, medium := h.device.2 })

def onStderr {α : Type} (op : Handle.M (σ × μ) α) (c : Context σ μ) : Except IoError α × Context σ μ :=
  match op (c.stderr.attach c.medium) with
  | .ok a h => (.ok a, { c with stderr := h.detach, medium := h.device.2 })
  | .error e h => (.error e, { c with stderr := h.detach, medium := h.device.2 })

/-- reads a line of standard input; `none` at the end -/
def readLine (c : Context σ μ) : Except IoError (Option String) × Context σ μ :=
  let (line, stdin) := c.stdin.readLine
  (line, { c with stdin })

def request (code : Int32) (c : Context σ μ) : Context σ μ := { c with registry := c.registry.request code }

/-- flushes standard error, then standard output, both in any case; the first error counts -/
def flushAll [Device (σ × μ)] (c : Context σ μ) : Except Failure Unit × Context σ μ :=
  let (err, c) := c.onStderr Handle.flush
  let (out, c) := c.onStdout Handle.flush
  match err, out with
  | .error e, _ => (.error (.flush c.stderr.name e), c)
  | .ok (), .error e => (.error (.flush c.stdout.name e), c)
  | .ok (), .ok () => (.ok (), c)

/-- flushes, and gives the exit code: the explicit status if there is one, else what was asked for -/
def shutdown [Device (σ × μ)] (status : Option Int32) (c : Context σ μ) : Except Failure Int32 × Context σ μ :=
  let (flushed, c) := c.flushAll
  (flushed.map fun () => status.getD c.registry.code, c)

end Context

/-! ## Texts -/

def Handle.text (h : Handle Target) : String :=
  "OutputHandle \x7b name: " ++ Text.showString h.name ++ ", line_buffered: " ++ Settings.boolText h.lineBuffered ++
    ", captured: " ++ Settings.boolText h.device.isMemory ++ " \x7d"

def Context.text (c : Context Target) : String :=
  "RuntimeContext \x7b config: " ++ c.settings.text ++ ", stdout: " ++ c.stdout.text ++ ", stderr: " ++ c.stderr.text ++
    ", stdin: InputHandle \x7b .. \x7d, exit_code: " ++ c.registry.text ++ " \x7d"

end ByNeed
