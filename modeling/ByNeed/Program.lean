/-
Programs: an entry cell holds an action; running the program performs the action, demands everything of its result,
and flushes all output, whatever happened before.

Actions are put together from primitive steps `P`. A continuation that fails is an action that fails in its place.
-/
import ByNeed.Context
import ByNeed.Host

namespace ByNeed

/-- an action over primitive steps; its result is a cell -/
inductive Action (P : Type) where
  | pure (r : Ref)
  | fail (e : EvalError)
  | primitive (p : P)
  | bind (first : Action P) (next : Ref → Action P)

namespace Action

variable {P : Type}

/-- performs `next` after `first`, on its result; `next` itself may fail -/
def andThen (first : Action P) (next : Ref → Outcome (Action P)) : Action P :=
  first.bind fun r =>
    match next r with
    | .ok a => a
    | .error e => .fail e

/-- actions show no more than that they are actions -/
def text (_ : Action P) : String := "<action>"

/-- performs an action, given what its primitive steps do -/
def run {W C V : Type} (perform : P → Host W C V Ref) : Action P → Host W C V Ref
  | pure r => return r
  | fail e => throw (.failed e)
  | primitive p => perform p
  | bind first next => do
    let r ← first.run perform
    (next r).run perform

end Action

/-- what running a program needs to know of the language it is written in -/
structure Dialect (σ C V P : Type) (μ : Type := Unit) where
  engine : Engine Empty C V
  perform : P → Host (Context σ μ) C V Ref
  action? : V → Option (Action P)
  /-- the exit status that a result stands for -/
  status : V → Option Int32

namespace Host

variable {σ μ C V α : Type}

/-- an input or output error is an evaluation error of the action it happens in -/
def io (op : Context σ μ → Except IoError α × Context σ μ) : Host (Context σ μ) C V α := do
  match ← withWorld op with
  | .ok a => return a
  | .error e => throw (.failed (.io e.text))

end Host

namespace Dialect

variable {σ μ C V P : Type} (L : Dialect σ C V P μ)

/-- forces the entry, performs its action, and demands everything of the result -/
def execute (main : Ref) : Host (Context σ μ) C V (Option Int32) := do
  let v ← Host.force L.engine main
  match L.action? v with
  | none => throw (.failed (.shape "action" "value"))
  | some a =>
    let r ← a.run L.perform
    let v ← Host.forceDeep L.engine r
    return L.status v

/-- runs a program. Output is flushed before anything is reported; an evaluation error counts before a flush error. An
abort leaves the program at once. -/
def runProgram [Device (σ × μ)] (main : Ref) : Host (Context σ μ) C V (Except Failure (Option Int32)) := do
  let outcome ← Host.attempt (L.execute main)
  let flushed ← Host.withWorld Context.flushAll
  match outcome with
  | .error e => return .error (.eval e)
  | .ok status => return flushed.map fun () => status

end Dialect

end ByNeed
