/-
Procedures around the evaluator.

A host procedure owns a session: the heap, the events recorded so far and whatever else it keeps (`W`). It demands
cells one after another and does as it likes in between. An evaluation error or an abort ends it unless it is caught;
either way the session keeps what has happened.
-/
import ByNeed.Machine

namespace ByNeed

/-- why a host procedure ended early -/
inductive Stop where
  | failed (e : EvalError)
  | aborted (text : String)
  /-- a demand took more steps than the engine allows -/
  | exhausted
deriving DecidableEq, Repr, Inhabited

/-- the heap, the events (latest first) and what else a host keeps -/
structure Session (W C V : Type) where
  heap : Heap Unit C V
  events : List String
  world : W

abbrev Host (W C V : Type) := EStateM Stop (Session W C V)

namespace Host

variable {W C V α : Type}

/-- runs the evaluator from `control` until it halts, and reads the answer off with `answer` -/
def drive (E : Engine Empty C V) (control : Control Empty C V) (answer : Control Empty C V → Except Stop α) :
    Host W C V α
  | ⟨heap, events, world⟩ =>
    match Machine.run E E.fuel ⟨heap, events, control, []⟩ with
    | none => .error .exhausted ⟨#[], [], world⟩
    | some ⟨heap, events, control, _⟩ =>
      match answer control with
      | .ok a => .ok a ⟨heap, events, world⟩
      | .error stop => .error stop ⟨heap, events, world⟩

/-- the outcome that a halted evaluator hands out -/
def outcomeOf : Control Empty C V → Except Stop (Outcome V)
  | .give o => .ok o
  | .unwind text => .error (.aborted text)
  | _ => .error .exhausted

/-- what the code of a halted evaluator left -/
def tailOf : Control Empty C V → Except Stop (Outcome (Tail V))
  | .ended t => .ok t
  | .unwind text => .error (.aborted text)
  | _ => .error .exhausted

/-- ends with the error of an outcome -/
def ofOutcome : Outcome α → Host W C V α
  | .ok a => pure a
  | .error e => throw (.failed e)

def outcome (E : Engine Empty C V) (r : Ref) : Host W C V (Outcome V) := drive E (.demand r) outcomeOf

def force (E : Engine Empty C V) (r : Ref) : Host W C V V := do ofOutcome (← outcome E r)

/-- demands everything reachable from a value -/
def normalize (E : Engine Empty C V) (v : V) : Host W C V V := do
  ofOutcome (← drive E (.traverse v (E.parts v)) outcomeOf)

/-- the value of a cell, with everything reachable from it -/
def forceDeep (E : Engine Empty C V) (r : Ref) : Host W C V V := do normalize E (← force E r)

/-- runs code as far as its last step -/
def call (E : Engine Empty C V) (c : C) : Host W C V (Tail V) := do ofOutcome (← drive E (.run (E.body c)) tailOf)

/-- a value at hand, or the value of the cell that stands for it -/
def resolve (E : Engine Empty C V) : Tail V → Host W C V V
  | .value v => pure v
  | .cell r => force E r

def whnf (E : Engine Empty C V) (c : C) : Host W C V V := do resolve E (← call E c)

def alloc (cell : Ref → Cell Unit C V) : Host W C V Ref
  | ⟨heap, events, world⟩ => let r := heap.size; .ok r ⟨heap.push (cell r), events, world⟩

def ready (v : V) : Host W C V Ref := alloc fun _ => .value v

/-- a new cell that holds code, which may mention the cell -/
def delay (c : Ref → C) : Host W C V Ref := alloc fun r => .pending (c r)

def status (r : Ref) : Host W C V Status := do return (← get).heap.status r

/-- hands out evaluation errors as results; aborts go on -/
def attempt (x : Host W C V α) : Host W C V (Outcome α) := fun s =>
  match x s with
  | .ok a s => .ok (.ok a) s
  | .error (.failed e) s => .ok (.error e) s
  | .error stop s => .error stop s

def world : Host W C V W := do return (← get).world

def withWorld (f : W → α × W) : Host W C V α
  | ⟨heap, events, world⟩ => let (a, world) := f world; .ok a ⟨heap, events, world⟩

end Host

end ByNeed
