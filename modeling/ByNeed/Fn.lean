/-
Curried function values.

A function waits for its parameters one at a time. Arguments are delivered to its code with the one bound last in
front, so binding an argument is putting it before those already bound. No binding step runs the code or forces an
argument.
-/
import ByNeed.Comp

namespace ByNeed

/-- function code `F` with the arguments bound so far, the latest first -/
structure Fn (F : Type) where
  code : F
  arity : Nat
  bound : List Ref
deriving Repr, DecidableEq

/-- what binding one argument gives -/
inductive Applied (F : Type) where
  /-- a function that waits for the rest -/
  | waiting (f : Fn F)
  /-- a call, with its delivered arguments -/
  | saturated (code : F) (delivered : List Ref)
deriving Repr, DecidableEq

namespace Fn

variable {F : Type}

def ofCode (code : F) (arity : Nat) : Fn F := ⟨code, arity, []⟩

/-- how many parameters are still open -/
def missing (f : Fn F) : Nat := f.arity - f.bound.length

def bindOne (f : Fn F) (a : Ref) : Applied F :=
  if f.missing ≤ 1 then .saturated f.code (a :: f.bound) else .waiting { f with bound := a :: f.bound }

/-- the delivered arguments when the rest is given in application order -/
def applyAll (f : Fn F) (args : List Ref) : List Ref := args.reverse ++ f.bound

/-- the delivered arguments when the rest is given in delivery order -/
def deliver (f : Fn F) (args : List Ref) : List Ref := args ++ f.bound

end Fn

end ByNeed
