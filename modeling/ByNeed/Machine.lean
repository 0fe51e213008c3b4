/-
The single-threaded evaluator, one step at a time.

Demanding a cell that holds code starts a walk: the cell is claimed and its code runs. If the code ends with another
cell that holds code, that one is claimed too and the walk goes on there. When the walk ends, its one outcome is
stored in every claimed cell. Demands made on the way nest on an explicit stack, so neither long walks nor deep nesting
need more than memory. A cell that is claimed already answers with `EvalError.blackHole`. An abort drops the stack and
poisons the cells of every walk on it.
-/
import ByNeed.Heap

namespace ByNeed

/-- a language of computations -/
structure Engine (T C V : Type) where
  /-- what code does when it runs -/
  body : C → Comp T C V (Next C V)
  /-- the cells that deep forcing visits from a value, in order -/
  parts : V → List Ref
  /-- most steps that one demand may take -/
  fuel : Nat

/-- what waits for the present step to come to an end -/
inductive Frame (T C V : Type) where
  /-- a walk with the cells it has claimed, the latest first -/
  | walk (claimed : List Ref)
  /-- a computation that waits for an outcome -/
  | resume (k : Outcome V → Comp T C V (Next C V))
  /-- deep forcing of `top` with the cells still to visit -/
  | visit (top : V) (work : List Ref)

def Frame.claimed {T C V : Type} : Frame T C V → List Ref
  | walk rs => rs
  | resume _ | visit _ _ => []

/-- what the evaluator does next -/
inductive Control (T C V : Type) where
  /-- run a computation -/
  | run (c : Comp T C V (Next C V))
  /-- code has ended -/
  | ended (t : Outcome (Tail V))
  /-- find the value of a cell -/
  | demand (r : Ref)
  /-- hand an outcome to the frame that waits for it -/
  | give (o : Outcome V)
  /-- go on with deep forcing -/
  | traverse (top : V) (work : List Ref)
  /-- drop the stack -/
  | unwind (text : String)

namespace Heap

variable {C V : Type}

/-- claims a cell: its code is handed out once, and the cell is busy from then on -/
def claim (h : Heap Unit C V) (r : Ref) : Claim C V × Heap Unit C V :=
  match h[r]? with
  | some (.pending c) => (.granted c, h.setIfInBounds r (.busy ()))
  | some (.value v) => (.outcome (.ok v), h)
  | some (.failed e) => (.outcome (.error e), h)
  | some (.busy _) | none => (.outcome (.error .blackHole), h)

end Heap

/-- the whole state of the evaluator; events stand latest first -/
structure Machine (C V : Type) where
  heap : Heap Unit C V
  events : List String
  control : Control Empty C V
  stack : List (Frame Empty C V)

namespace Machine

variable {C V : Type}

/-- nothing is left to do: code, an outcome or an abort has reached the bottom of the stack -/
def halted (m : Machine C V) : Bool :=
  match m.control, m.stack with
  | .ended _, [] | .give _, [] | .unwind _, [] => true
  | _, _ => false

def request (E : Engine Empty C V) (heap : Heap Unit C V) (events : List String) (stack : List (Frame Empty C V)) :
    Comp Empty C V (Next C V) → Machine C V
  | .done (.value v) => ⟨heap, events, .ended (.ok (.value v)), stack⟩
  | .done (.cell r) => ⟨heap, events, .ended (.ok (.cell r)), stack⟩
  | .done (.code c) => ⟨heap, events, .run (E.body c), stack⟩
  | .fail e => ⟨heap, events, .ended (.error e), stack⟩
  | .abort text => ⟨heap, events, .unwind text, stack⟩
  | .force r k => ⟨heap, events, .demand r, .resume k :: stack⟩
  | .eval c k => ⟨heap, events, .run (E.body c), .resume k :: stack⟩
  | .normalize v k => ⟨heap, events, .traverse v (E.parts v), .resume k :: stack⟩
  | .peek r k => ⟨heap, events, .run (k (heap.status r)), stack⟩
  | .ready v k => let r := heap.size; ⟨heap.push (.value v), events, .run (k r), stack⟩
  | .delay c k => let r := heap.size; ⟨heap.push (.pending (c r)), events, .run (k r), stack⟩
  | .emit event k => ⟨heap, event :: events, .run (k ()), stack⟩
  | .fork permit _ _ => nomatch permit

/-- code has ended: a walk follows the cell it ended with, or stores its outcome in all its cells -/
def conclude (E : Engine Empty C V) (heap : Heap Unit C V) (events : List String) (t : Outcome (Tail V)) :
    List (Frame Empty C V) → Machine C V
  | .walk claimed :: stack =>
    match t with
    | .error e => ⟨heap.settleAll (.error e) claimed, events, .give (.error e), stack⟩
    | .ok (.value v) => ⟨heap.settleAll (.ok v) claimed, events, .give (.ok v), stack⟩
    | .ok (.cell r) =>
      match heap.claim r with
      | (.granted c, heap) => ⟨heap, events, .run (E.body c), .walk (r :: claimed) :: stack⟩
      | (.outcome o, heap) => ⟨heap.settleAll o claimed, events, .give o, stack⟩
  | [] => ⟨heap, events, .ended t, []⟩
  | stack =>
    match t with
    | .error e => ⟨heap, events, .give (.error e), stack⟩
    | .ok (.value v) => ⟨heap, events, .give (.ok v), stack⟩
    | .ok (.cell r) => ⟨heap, events, .demand r, stack⟩

/-- an outcome reaches the frame that waits for it -/
def deliver (E : Engine Empty C V) (heap : Heap Unit C V) (events : List String) (o : Outcome V) :
    List (Frame Empty C V) → Machine C V
  | .resume k :: stack => ⟨heap, events, .run (k o), stack⟩
  | .visit top work :: stack =>
    match o with
    | .ok v => ⟨heap, events, .traverse top (E.parts v ++ work), stack⟩
    | .error e => ⟨heap, events, .give (.error e), stack⟩
  | .walk claimed :: stack => ⟨heap.settleAll o claimed, events, .give o, stack⟩
  | [] => ⟨heap, events, .give o, []⟩

def step (E : Engine Empty C V) : Machine C V → Machine C V
  | ⟨heap, events, .run c, stack⟩ => request E heap events stack c
  | ⟨heap, events, .ended t, stack⟩ => conclude E heap events t stack
  | ⟨heap, events, .give o, stack⟩ => deliver E heap events o stack
  | ⟨heap, events, .demand r, stack⟩ =>
    match heap.claim r with
    | (.granted c, heap) => ⟨heap, events, .run (E.body c), .walk [r] :: stack⟩
    | (.outcome o, heap) => ⟨heap, events, .give o, stack⟩
  | ⟨heap, events, .traverse top [], stack⟩ => ⟨heap, events, .give (.ok top), stack⟩
  | ⟨heap, events, .traverse top (r :: work), stack⟩ => ⟨heap, events, .demand r, .visit top work :: stack⟩
  | ⟨heap, events, .unwind text, frame :: stack⟩ =>
    ⟨heap.settleAll (.error .poisoned) frame.claimed, events, .unwind text, stack⟩
  | ⟨heap, events, .unwind text, []⟩ => ⟨heap, events, .unwind text, []⟩

/-- steps until nothing is left to do; `none` if that takes more than `fuel` steps -/
def run (E : Engine Empty C V) : (fuel : Nat) → Machine C V → Option (Machine C V)
  | 0, _ => none
  | fuel + 1, m => if m.halted then some m else run E fuel (m.step E)

end Machine

end ByNeed
