/-
Computations that run inside cells, as trees of requests.

A computation forces cells one after another, looks at cells, makes new ones, records events, and finally ends with a
value, with another cell to go on with, or with more code. Trees are well-founded, so a computation cannot run on
without naming code (`Next.code`, `eval`, `delay`): unbounded loops are visible in the syntax of a language.
`T` is the type of permissions to start a thread: with `T := Empty` a computation stays on its thread.
-/
import ByNeed.Error

namespace ByNeed

abbrev Ref := Nat

/-- what can be seen of a cell without forcing it -/
inductive Status where
  | unevaluated
  | forcing
  | evaluated
  | failed
deriving DecidableEq, Repr, Inhabited

/-- true as long as no outcome is stored -/
def Status.isPending : Status → Bool
  | unevaluated | forcing => true
  | evaluated | failed => false

/-- how code goes on after its last request: with a value, with a cell, or with other code in its place -/
inductive Next (C V : Type) where
  | value (v : V)
  | cell (r : Ref)
  | code (c : C)
deriving Repr

/-- what finished code leaves: a value at hand or a cell that stands for it -/
inductive Tail (V : Type) where
  | value (v : V)
  | cell (r : Ref)
deriving Repr

/-- a computation with result `α` over cells that hold code `C` and values `V` -/
inductive Comp (T C V α : Type) where
  /-- ends with a result -/
  | done (a : α)
  /-- ends with an error -/
  | fail (e : EvalError)
  /-- cuts off every computation in progress on this thread -/
  | abort (text : String)
  /-- demands the value of a cell -/
  | force (r : Ref) (k : Outcome V → Comp T C V α)
  /-- runs code on the spot and demands the value it ends with -/
  | eval (c : C) (k : Outcome V → Comp T C V α)
  /-- demands everything reachable from a value -/
  | normalize (v : V) (k : Outcome V → Comp T C V α)
  /-- looks at a cell -/
  | peek (r : Ref) (k : Status → Comp T C V α)
  /-- makes a cell that holds a value -/
  | ready (v : V) (k : Ref → Comp T C V α)
  /-- makes a cell that holds code, which may mention the new cell -/
  | delay (c : Ref → C) (k : Ref → Comp T C V α)
  /-- records an event -/
  | emit (event : String) (k : Unit → Comp T C V α)
  /-- runs code on a thread of its own and waits for it; `none` if that thread was cut off -/
  | fork (permit : T) (c : C) (k : Option (Outcome V) → Comp T C V α)

namespace Comp

variable {T C V α β : Type}

/-- goes on with `f` where `c` ends with a result -/
def bind (c : Comp T C V α) (f : α → Comp T C V β) : Comp T C V β :=
  match c with
  | done a => f a
  | fail e => fail e
  | abort text => abort text
  | force r k => force r fun o => (k o).bind f
  | eval c k => eval c fun o => (k o).bind f
  | normalize v k => normalize v fun o => (k o).bind f
  | peek r k => peek r fun s => (k s).bind f
  | ready v k => ready v fun r => (k r).bind f
  | delay c k => delay c fun r => (k r).bind f
  | emit event k => emit event fun u => (k u).bind f
  | fork permit c k => fork permit c fun o => (k o).bind f

instance : Monad (Comp T C V) where
  pure := done
  bind := bind

/-- hands out errors as results; an abort is not an error -/
def attempt : Comp T C V α → Comp T C V (Outcome α)
  | done a => done (.ok a)
  | fail e => done (.error e)
  | abort text => abort text
  | force r k => force r fun o => (k o).attempt
  | eval c k => eval c fun o => (k o).attempt
  | normalize v k => normalize v fun o => (k o).attempt
  | peek r k => peek r fun s => (k s).attempt
  | ready v k => ready v fun r => (k r).attempt
  | delay c k => delay c fun r => (k r).attempt
  | emit event k => emit event fun u => (k u).attempt
  | fork permit c k => fork permit c fun o => (k o).attempt

def ofOutcome : Outcome α → Comp T C V α
  | .ok a => done a
  | .error e => fail e

/-- the value of a cell, or its error -/
def demand (r : Ref) : Comp T C V V := force r ofOutcome

def whnf (c : C) : Comp T C V V := eval c ofOutcome

/-- demands everything reachable from a value -/
def deepen (v : V) : Comp T C V V := normalize v ofOutcome

def newReady (v : V) : Comp T C V Ref := ready v done

def newDelay (c : C) : Comp T C V Ref := delay (fun _ => c) done

def statusOf (r : Ref) : Comp T C V Status := peek r done

def record (event : String) : Comp T C V Unit := emit event done

@[simp]
theorem pure_eq_done (a : α) : (pure a : Comp T C V α) = done a := rfl

@[simp]
theorem bind_eq_bind (c : Comp T C V α) (f : α → Comp T C V β) : c >>= f = c.bind f := rfl

end Comp

end ByNeed
