/-
Cells and heaps.

A cell holds code until it is claimed, is busy while its code runs, and then holds a value or an error. `O` is what a
claim remembers: nothing (`Unit`) on a single thread, the claiming thread where several threads share cells.
-/
import ByNeed.Comp

namespace ByNeed

inductive Cell (O C V : Type) where
  | pending (c : C)
  | busy (owner : O)
  | value (v : V)
  | failed (e : EvalError)
deriving Repr

namespace Cell

variable {O C V : Type}

/-- the cell that remembers an outcome -/
def ofOutcome : Outcome V → Cell O C V
  | .ok v => value v
  | .error e => failed e

/-- the outcome a cell remembers -/
def outcome? : Cell O C V → Option (Outcome V)
  | value v => some (.ok v)
  | failed e => some (.error e)
  | pending _ | busy _ => none

def status : Cell O C V → Status
  | pending _ => .unevaluated
  | busy _ => .forcing
  | value _ => .evaluated
  | failed _ => .failed

end Cell

/-- the cells made so far, by address -/
abbrev Heap (O C V : Type) := Array (Cell O C V)

namespace Heap

variable {O C V : Type}

/-- stores an outcome in a cell, whatever it held -/
def settle (h : Heap O C V) (o : Outcome V) (r : Ref) : Heap O C V := h.setIfInBounds r (.ofOutcome o)

/-- stores one outcome in several cells -/
def settleAll (h : Heap O C V) (o : Outcome V) (rs : List Ref) : Heap O C V := rs.foldl (·.settle o) h

/-- an address outside the heap reads as a failed cell -/
def status (h : Heap O C V) (r : Ref) : Status := (h[r]?.map Cell.status).getD .failed

end Heap

inductive Claim (C V : Type) where
  /-- the code is handed out, to be run by the claimant -/
  | granted (c : C)
  /-- there is nothing to run -/
  | outcome (o : Outcome V)
deriving Repr

/-! ## Named cells -/

/-- a named cell; a bare one shows all its states, any other is seen through a handle -/
structure Global where
  cell : Ref
  bare : Bool
deriving DecidableEq, Repr

/-- the text of a handle to a cell -/
def Status.handleText (s : Status) : String := if s.isPending then "<thunk>" else "<evaluated>"

/-- the text of a named cell, given the texts of bare ones -/
def Global.text (cellText : Status → String) (g : Global) (s : Status) : String :=
  if g.bare then cellText s else s.handleText

/-- an unknown name was used -/
def unbound (x : String) : EvalError := .user ("unbound: " ++ x)

end ByNeed
