/-
Scripted programs: a list of effects in sequence, then a result, each held in a cell in one of several ways. Cells
record when their code runs.
-/
import ByNeed.Program
import ByNeed.Dynamic
import ByNeed.Text

namespace ByNeed.Script

/-- an element inside a result: a number or a failure, both delayed -/
inductive Elem where
  | int (n : Int64)
  | failing (e : EvalError)
deriving DecidableEq, Repr

/-- how a cell holds its value -/
inductive Holding where
  | ready
  | delay
  /-- the code ends with another cell that has to run -/
  | chain
  /-- the code ends with its own cell -/
  | loop
  | abort
  | failing (e : EvalError)
deriving DecidableEq, Repr

inductive Effect where
  | out (s : String)
  | outLine (s : String)
  | err (s : String)
  | errLine (s : String)
  | flush
  | request (code : Int32)
  /-- reads a line and prints it quoted -/
  | read
  | fail (e : EvalError)
  | abort (text : String)
deriving DecidableEq, Repr

/-- one effect of a script, or a continuation that fails -/
inductive Entry where
  | effect (e : Effect)
  | nextFails (e : EvalError)
deriving DecidableEq, Repr

/-- a result; lists and options hold cells -/
inductive Result where
  | int (n : Int32)
  | bool (b : Bool)
  | unit
  | str (s : String)
  | vector (items : List Ref)
  | opt (item : Option Ref)
  /-- a payload is known by its cells -/
  | dyn (d : Dynamic (List Ref))
deriving Repr

/-- what primitive actions do: an effect, or making a new cell for the result -/
inductive Primitive where
  | effect (e : Effect)
  | yield (how : Holding) (v : Result)

inductive Value where
  | element (n : Int64)
  | result (v : Result)
  | action (a : Action Primitive)

inductive Code where
  | element (e : Elem)
  | value (v : Value)
  | delayed (label : String) (v : Value)
  | chained (label : String) (v : Value)
  | looping (label : String) (self : Ref)
  | aborting (label : String)
  | failing (label : String) (e : EvalError)

abbrev Task := Comp Empty Code Value

def Code.body : Code → Task (Next Code Value)
  | element (.int n) => do
    .record ("element " ++ toString n.toInt)
    return .value (.element n)
  | element (.failing e) => do
    .record "element"
    .fail e
  | value v => return .value v
  | delayed label v => do
    .record label
    return .value v
  | chained label v => do
    .record label
    return .cell (← .newDelay (.value v))
  | looping label self => do
    .record label
    return .cell self
  | aborting label => do
    .record label
    .abort (label ++ " panicked")
  | failing label e => do
    .record label
    .fail e

namespace Value

/-- the cells that deep forcing visits -/
def parts : Value → List Ref
  | result (.vector items) => items
  | result (.opt item) => item.toList
  | result (.dyn (.data _ cells)) => cells
  | _ => []

def status : Value → Option Int32
  | result (.int n) => some n
  | result (.bool b) => some (statusOfBool b)
  | result (.dyn d) => d.status?
  | _ => none

end Value

def engine (fuel : Nat) : Engine Empty Code Value := ⟨Code.body, Value.parts, fuel⟩

variable {W : Type}

def newElement (e : Elem) : Host W Code Value Ref := Host.delay fun _ => .element e

/-- makes a cell that holds a value in a given way -/
def hold (label : String) (how : Holding) (v : Value) : Host W Code Value Ref :=
  match how with
  | .ready => Host.ready v
  | .delay => Host.delay fun _ => .delayed label v
  | .chain => Host.delay fun _ => .chained label v
  | .loop => Host.delay fun self => .looping label self
  | .abort => Host.delay fun _ => .aborting label
  | .failing e => Host.delay fun _ => .failing label e

def Effect.perform {σ μ : Type} [Device (σ × μ)] : Effect → Host (Context σ μ) Code Value Unit
  | out s => Host.io (Context.onStdout (Handle.write s))
  | outLine s => Host.io (Context.onStdout (Handle.writeLine s))
  | err s => Host.io (Context.onStderr (Handle.write s))
  | errLine s => Host.io (Context.onStderr (Handle.writeLine s))
  | flush => Host.io (Context.onStdout Handle.flush)
  | request code => Host.withWorld fun c => ((), c.request code)
  | read => do
    let line ← Host.io Context.readLine
    Host.io (Context.onStdout (Handle.writeLine ((line.map Text.quoteString).getD "EOF")))
  | fail e => throw (.failed e)
  | abort text => throw (.aborted text)

def Primitive.perform {σ μ : Type} [Device (σ × μ)] : Primitive → Host (Context σ μ) Code Value Ref
  | effect e => do
    e.perform
    Host.ready (.result .unit)
  | yield how v => hold "result" how (.result v)

/-- the continuation that an entry of a script stands for -/
def Entry.next : Entry → Outcome (Action Primitive)
  | effect e => .ok (.primitive (.effect e))
  | nextFails e => .error e

/-- a script: its effects in sequence after `first`, then `last` -/
def sequence (last : Action Primitive) (first : Action Primitive) : List Entry → Action Primitive
  | [] => first.andThen fun _ => .ok last
  | entry :: entries => sequence last (first.andThen fun _ => entry.next) entries

/-- makes the entry cell of a script; with `anew` each run makes a new cell for the result -/
def entry (entries : List Entry) (v : Result) (how : Holding) (anew : Bool) (entryHow : Holding) :
    Host W Code Value Ref := do
  let start ← Host.ready (.result .unit)
  let last ← if anew then pure (.primitive (.yield how v)) else do pure (.pure (← hold "result" how (.result v)))
  hold "entry" entryHow (.action (sequence last (.pure start) entries))

def dialect {σ μ : Type} [Device (σ × μ)] (fuel : Nat) : Dialect σ Code Value Primitive μ where
  engine := engine fuel
  perform := Primitive.perform
  action?
    | .action a => some a
    | _ => none
  status := Value.status

end ByNeed.Script
