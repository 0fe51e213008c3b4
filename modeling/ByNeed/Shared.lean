/-
Cells shared between threads.

A claim marks its cell with the claiming thread. The owner that comes back to a cell of its own gets
`EvalError.blackHole`; any other thread waits until an outcome is published. A walk publishes its outcome cell by cell,
the first claimed cell first, and so does an abort. Each claim and each publication is one step; which thread moves
next is left open, so a run of the pool is any sequence of `step`s. `run` is one such schedule: the first thread that
can move does.
-/
import ByNeed.Machine

namespace ByNeed

abbrev ThreadId := Nat

/-- what a thread is doing -/
inductive Phase (T C V : Type) where
  | act (control : Control T C V)
  /-- publish an outcome in these cells, then hand it out -/
  | publish (o : Outcome V) (cells : List Ref)
  /-- publish that the computation of these cells was cut off, then go on unwinding -/
  | poison (text : String) (cells : List Ref)
  /-- wait for a thread to finish -/
  | join (child : ThreadId) (k : Option (Outcome V) → Comp T C V (Next C V))

structure Thread (T C V : Type) where
  phase : Phase T C V
  stack : List (Frame T C V)

/-- threads over one heap; events stand latest first -/
structure Pool (T C V : Type) where
  heap : Heap ThreadId C V
  events : List String
  threads : Array (Thread T C V)

namespace Heap

variable {C V : Type}

/-- claims a cell for a thread; `none` if the thread has to wait -/
def claimBy (h : Heap ThreadId C V) (me : ThreadId) (r : Ref) : Option (Claim C V) × Heap ThreadId C V :=
  match h[r]? with
  | some (.pending c) => (some (.granted c), h.setIfInBounds r (.busy me))
  | some (.value v) => (some (.outcome (.ok v)), h)
  | some (.failed e) => (some (.outcome (.error e)), h)
  | some (.busy owner) => if owner = me then (some (.outcome (.error .blackHole)), h) else (none, h)
  | none => (some (.outcome (.error .blackHole)), h)

/-- the cell is claimed by another thread -/
def heldByOther (h : Heap ThreadId C V) (me : ThreadId) (r : Ref) : Bool :=
  match h[r]? with
  | some (.busy owner) => owner != me
  | _ => false

end Heap

namespace Thread

variable {T C V : Type}

def demanding (r : Ref) : Thread T C V := ⟨.act (.demand r), []⟩

/-- what a finished thread leaves: an outcome, or the text of the abort that cut it off -/
def result? (t : Thread T C V) : Option (Except String (Outcome V)) :=
  match t.phase, t.stack with
  | .act (.give o), [] => some (.ok o)
  | .act (.unwind text), [] => some (.error text)
  | _, _ => none

/-- the cell that a thread is about to claim -/
def wanted? (t : Thread T C V) : Option Ref :=
  match t.phase, t.stack with
  | .act (.demand r), _ => some r
  | .act (.ended (.ok (.cell r))), .walk _ :: _ => some r
  | _, _ => none

end Thread

namespace Pool

variable {T C V : Type}

/-- the result of a thread that has finished -/
def result? (p : Pool T C V) (t : ThreadId) : Option (Except String (Outcome V)) := p.threads[t]?.bind Thread.result?

/-- the thread waits for a cell or for another thread -/
def waiting (p : Pool T C V) (me : ThreadId) : Bool :=
  match p.threads[me]? with
  | none => false
  | some t =>
    match t.phase with
    | .join child _ => (p.result? child).isNone
    | _ => (t.wanted?.map (p.heap.heldByOther me)).getD false

/-- the thread can move -/
def ready (p : Pool T C V) (me : ThreadId) : Bool :=
  match p.threads[me]? with
  | none => false
  | some t => t.result?.isNone && !p.waiting me

/-- the thread goes on in another phase -/
def put (p : Pool T C V) (me : ThreadId) (phase : Phase T C V) (stack : List (Frame T C V)) : Pool T C V :=
  { p with threads := p.threads.setIfInBounds me ⟨phase, stack⟩ }

/-- the thread goes on with a control of the evaluator -/
def putAct (p : Pool T C V) (me : ThreadId) (control : Control T C V) (stack : List (Frame T C V)) : Pool T C V :=
  p.put me (.act control) stack

def request (E : Engine T C V) (me : ThreadId) (p : Pool T C V) (stack : List (Frame T C V)) :
    Comp T C V (Next C V) → Pool T C V
  | .done (.value v) => p.putAct me (.ended (.ok (.value v))) stack
  | .done (.cell r) => p.putAct me (.ended (.ok (.cell r))) stack
  | .done (.code c) => p.putAct me (.run (E.body c)) stack
  | .fail e => p.putAct me (.ended (.error e)) stack
  | .abort text => p.putAct me (.unwind text) stack
  | .force r k => p.putAct me (.demand r) (.resume k :: stack)
  | .eval c k => p.putAct me (.run (E.body c)) (.resume k :: stack)
  | .normalize v k => p.putAct me (.traverse v (E.parts v)) (.resume k :: stack)
  | .peek r k => p.putAct me (.run (k (p.heap.status r))) stack
  | .ready v k =>
    let r := p.heap.size
    { p with heap := p.heap.push (.value v) }.putAct me (.run (k r)) stack
  | .delay c k =>
    let r := p.heap.size
    { p with heap := p.heap.push (.pending (c r)) }.putAct me (.run (k r)) stack
  | .emit event k => { p with events := event :: p.events }.putAct me (.run (k ())) stack
  | .fork _ c k =>
    let child := p.threads.size
    { p with threads := p.threads.push ⟨.act (.run (E.body c)), []⟩ }.put me (.join child k) stack

/-- code has ended: a walk follows the cell it ended with, or starts to publish -/
def conclude (E : Engine T C V) (me : ThreadId) (p : Pool T C V) (t : Outcome (Tail V)) :
    List (Frame T C V) → Pool T C V
  | .walk claimed :: stack =>
    match t with
    | .error e => p.put me (.publish (.error e) claimed.reverse) stack
    | .ok (.value v) => p.put me (.publish (.ok v) claimed.reverse) stack
    | .ok (.cell r) =>
      let ⟨heap, events, threads⟩ := p
      match heap.claimBy me r with
      | (some (.granted c), heap) =>
        Pool.putAct ⟨heap, events, threads⟩ me (.run (E.body c)) (.walk (r :: claimed) :: stack)
      | (some (.outcome o), heap) => Pool.put ⟨heap, events, threads⟩ me (.publish o claimed.reverse) stack
      | (none, heap) => ⟨heap, events, threads⟩
  | stack =>
    match t with
    | .error e => p.putAct me (.give (.error e)) stack
    | .ok (.value v) => p.putAct me (.give (.ok v)) stack
    | .ok (.cell r) => p.putAct me (.demand r) stack

/-- an outcome reaches the frame that waits for it -/
def deliver (E : Engine T C V) (me : ThreadId) (p : Pool T C V) (o : Outcome V) : List (Frame T C V) → Pool T C V
  | .resume k :: stack => p.putAct me (.run (k o)) stack
  | .visit top work :: stack =>
    match o with
    | .ok v => p.putAct me (.traverse top (E.parts v ++ work)) stack
    | .error e => p.putAct me (.give (.error e)) stack
  | .walk claimed :: stack => p.put me (.publish o claimed.reverse) stack
  | [] => p.putAct me (.give o) []

/-- a demand claims its cell, or waits -/
def demand (E : Engine T C V) (me : ThreadId) (p : Pool T C V) (r : Ref) (stack : List (Frame T C V)) : Pool T C V :=
  let ⟨heap, events, threads⟩ := p
  match heap.claimBy me r with
  | (some (.granted c), heap) => Pool.putAct ⟨heap, events, threads⟩ me (.run (E.body c)) (.walk [r] :: stack)
  | (some (.outcome o), heap) => Pool.putAct ⟨heap, events, threads⟩ me (.give o) stack
  | (none, heap) => ⟨heap, events, threads⟩

def store (p : Pool T C V) (o : Outcome V) (r : Ref) : Pool T C V := { p with heap := p.heap.settle o r }

/-- one move of a thread; a thread that waits or has finished stays where it is -/
def step (E : Engine T C V) (me : ThreadId) (p : Pool T C V) : Pool T C V :=
  match p.threads[me]? with
  | none => p
  | some ⟨phase, stack⟩ =>
    match phase with
    | .act (.run c) => request E me p stack c
    | .act (.ended t) => conclude E me p t stack
    | .act (.give o) => deliver E me p o stack
    | .act (.demand r) => demand E me p r stack
    | .act (.traverse top []) => p.putAct me (.give (.ok top)) stack
    | .act (.traverse top (r :: work)) => p.putAct me (.demand r) (.visit top work :: stack)
    | .act (.unwind text) =>
      match stack with
      | frame :: stack => p.put me (.poison text frame.claimed.reverse) stack
      | [] => p
    | .publish o [] => p.putAct me (.give o) stack
    | .publish o (r :: cells) => (p.store o r).put me (.publish o cells) stack
    | .poison text [] => p.putAct me (.unwind text) stack
    | .poison text (r :: cells) => (p.store (.error .poisoned) r).put me (.poison text cells) stack
    | .join child k =>
      match p.result? child with
      | none => p
      | some (.ok o) => p.putAct me (.run (k (some o))) stack
      | some (.error _) => p.putAct me (.run (k none)) stack

/-- the first thread that can move -/
def next? (p : Pool T C V) : Option ThreadId := (List.range p.threads.size).find? p.ready

/-- moves the first thread that can, until none can; `none` if that takes more than `fuel` moves -/
def run (E : Engine T C V) : (fuel : Nat) → Pool T C V → Option (Pool T C V)
  | 0, _ => none
  | fuel + 1, p =>
    match p.next? with
    | some t => run E fuel (p.step E t)
    | none => some p

end Pool

end ByNeed
