/-
Errors: why demanding a value can fail, how each cause is worded, and what can go wrong in reading and writing.
-/
namespace ByNeed

/-- why an evaluation failed -/
inductive EvalError where
  /-- the program raised an error of its own -/
  | user (text : String)
  /-- no alternative of the named function covers its argument -/
  | pattern (name : String)
  /-- a value of another shape was wanted -/
  | shape (expected got : String)
  /-- a cell was demanded by its own computation -/
  | blackHole
  /-- reading or writing failed -/
  | io (text : String)
deriving DecidableEq, Repr, Inhabited

namespace EvalError

/-- the one wording of each cause -/
def message : EvalError → String
  | user text => "error: " ++ text
  | pattern name => "pattern match failure in " ++ name
  | shape expected got => "type error: expected " ++ expected ++ ", got " ++ got
  | blackHole => "infinite loop detected (black hole)"
  | io text => "i/o error: " ++ text

/-- stored in every cell whose computation was cut off by an abort -/
def poisoned : EvalError := user "thunk computation panicked"

/-- raised when a result does not fit its integer type -/
def overflow : EvalError := user "arithmetic overflow"

end EvalError

/-- what demanding a value gives: the value, or why there is none -/
abbrev Outcome (α : Type) := Except EvalError α

/-! ## Reading and writing -/

inductive IoKind where
  | brokenPipe
  | interrupted
  | wouldBlock
  | permissionDenied
  | other
  | writeZero
  | invalidData
deriving DecidableEq, Repr, Inhabited

structure IoError where
  kind : IoKind
  text : String
deriving DecidableEq, Repr, Inhabited

end ByNeed
