/-
Procedures around a pool of threads: each starts some threads over the shared heap and waits until they have finished.
-/
import ByNeed.Shared
import ByNeed.Host

namespace ByNeed.Shared

/-- the shared heap, the events (latest first) and what else a host keeps -/
structure Session (W C V : Type) where
  heap : Heap ThreadId C V
  events : List String
  world : W

abbrev Host (W C V : Type) := EStateM Stop (Session W C V)

namespace Host

variable {T W C V α : Type}

/-- the result of a thread; one that waits for ever has none -/
def resultOf (p : Pool T C V) (t : ThreadId) : Except Stop (Except String (Outcome V)) :=
  match p.result? t with
  | some result => .ok result
  | none => .error .exhausted

/-- starts threads together and waits for their results -/
def gather (E : Engine T C V) (threads : List (Thread T C V)) : Host W C V (List (Except String (Outcome V)))
  | ⟨heap, events, world⟩ =>
    match Pool.run E E.fuel ⟨heap, events, threads.toArray⟩ with
    | none => .error .exhausted ⟨#[], [], world⟩
    | some p =>
      match (List.range threads.length).mapM (resultOf p) with
      | .ok results => .ok results ⟨p.heap, p.events, world⟩
      | .error stop => .error stop ⟨p.heap, p.events, world⟩

/-- the outcome of a single thread; an abort goes on -/
def single (E : Engine T C V) (thread : Thread T C V) : Host W C V (Outcome V) := do
  match ← gather E [thread] with
  | [.ok o] => return o
  | [.error text] => throw (.aborted text)
  | _ => throw .exhausted

/-- ends with the error of an outcome -/
def ofOutcome : Outcome α → Host W C V α
  | .ok a => pure a
  | .error e => throw (.failed e)

def force (E : Engine T C V) (r : Ref) : Host W C V V := do ofOutcome (← single E (.demanding r))

def evaluate (E : Engine T C V) (c : C) : Host W C V (Outcome V) := single E ⟨.act (.run (E.body c)), []⟩

def whnf (E : Engine T C V) (c : C) : Host W C V V := do ofOutcome (← evaluate E c)

/-- the value of a cell, with everything reachable from it -/
def forceDeep (E : Engine T C V) (r : Ref) : Host W C V V := do
  let v ← force E r
  ofOutcome (← single E ⟨.act (.traverse v (E.parts v)), []⟩)

def alloc (cell : Cell ThreadId C V) : Host W C V Ref
  | ⟨heap, events, world⟩ => let r := heap.size; .ok r ⟨heap.push cell, events, world⟩

def status (r : Ref) : Host W C V Status := do return (← get).heap.status r

def world : Host W C V W := do return (← get).world

def setWorld (f : W → W) : Host W C V Unit
  | ⟨heap, events, world⟩ => .ok () ⟨heap, events, f world⟩

end Host

end ByNeed.Shared
