/-
A workbench for shared cells.

Besides named shared cells it keeps local handles. A wrapped handle stands for a shared cell. A link is a cell of its
own that only leads to another handle; no other thread can reach it, so it lives in the same heap.
-/
import ByNeed.Shared.Expr
import ByNeed.Shared.Host

namespace ByNeed.Shared

inductive Local where
  | wrapped (r : Ref)
  | link (r : Ref)
deriving DecidableEq, Repr

def Local.cell : Local → Ref
  | wrapped r | link r => r

/-- named cells and local handles, the latest first -/
structure Bench where
  names : List (String × Global)
  locals : List (String × Local)

def Bench.empty : Bench := ⟨[], []⟩

def Bench.define (b : Bench) (x : String) (g : Global) : Bench :=
  { b with names := (x, g) :: b.names.filter fun p => p.1 != x }

def Bench.drop (b : Bench) (x : String) : Bench := { b with names := b.names.filter fun p => p.1 != x }

def Bench.defineLocal (b : Bench) (w : String) (l : Local) : Bench :=
  { b with locals := (w, l) :: b.locals.filter fun p => p.1 != w }

/-- how a step makes a cell -/
inductive Making where
  | delay
  | delayValue
  | bareDelay
  | ready
  | bareReady
deriving DecidableEq, Repr

inductive Step where
  | define (x : String) (how : Making) (e : Expr)
  | force (x : String)
  | deep (x : String)
  | state (x : String)
  | alias (x y : String)
  | drop (x : String)
  | same (x y : String)
  /-- force on a thread of its own -/
  | spawn (x : String)
  /-- force each on a thread of its own, all at once -/
  | race (xs : List String)
  | wrap (w x : String)
  | link (c w : String)
  | forceLocal (w : String)
  | deepLocal (w : String)
  | stateLocal (w : String)
  | takeLocal (w : String)
  | settleLocal (w : String) (e : Expr)

inductive Shown where
  | int (n : Int64)
  | str (s : String)
  | list (items : List Shown)
  | handle (text : String)

inductive Reply where
  | done
  | value (v : Shown)
  | state (unevaluated : Bool) (text : String)
  | same (b : Bool)
  | taken
  /-- a result per thread: a value, an error, or the text of an abort -/
  | results (rs : List (Except Stop Shown))

abbrev BenchM := Host Bench Code Value

namespace Bench

def global (x : String) : BenchM Global := do
  match (← Host.world).names.lookup x with
  | some g => return g
  | none => throw (.failed (unbound x))

def handle (w : String) : BenchM Local := do
  match (← Host.world).locals.lookup w with
  | some l => return l
  | none => throw (.failed (unbound w))

/-- a value made visible, its cells by `part` -/
def showWith (part : Ref → BenchM Shown) : Value → BenchM Shown
  | .int n => pure (.int n)
  | .str s => pure (.str s)
  | .list items => do return .list (← items.mapM part)

/-- cells show as handles -/
def showShallow (v : Value) : BenchM Shown := showWith (fun r => return .handle (← Host.status r).handleText) v

/-- cells show what they hold; `depth` bounds how far cells lead to cells -/
def showDeep (E : Engine Unit Code Value) : (depth : Nat) → Value → BenchM Shown
  | 0, _ => throw .exhausted
  | depth + 1, v => showWith (fun r => do showDeep E depth (← Host.force E r)) v

/-- what a thread came to -/
def showResult : Except String (Outcome Value) → BenchM (Except Stop Shown)
  | .ok (.ok v) => do return .ok (← showShallow v)
  | .ok (.error e) => pure (.error (.failed e))
  | .error text => pure (.error (.aborted text))

def forced (E : Engine Unit Code Value) (r : Ref) : BenchM Reply := do
  return .value (← showShallow (← Host.force E r))

def forcedDeep (E : Engine Unit Code Value) (r : Ref) : BenchM Reply := do
  let v ← Host.forceDeep E r
  return .value (← showDeep E ((← get).heap.size + 1) v)

def perform (fuel : Nat) (step : Step) : BenchM Reply := do
  let names := (← Host.world).names
  let E := engine (names.lookup ·) fuel
  match step with
  | .define x how e =>
    let g : Global ← match how with
      | .delay => do pure ⟨← Host.alloc (.pending (.eval e)), false⟩
      | .delayValue => do pure ⟨← Host.alloc (.pending (.value e)), false⟩
      | .bareDelay => do pure ⟨← Host.alloc (.pending (.eval e)), true⟩
      | .ready => do pure ⟨← Host.alloc (.value (← Host.whnf E (.eval e))), false⟩
      | .bareReady => do pure ⟨← Host.alloc (.value (← Host.whnf E (.eval e))), true⟩
    Host.setWorld (·.define x g)
    return .done
  | .force x => forced E (← global x).cell
  | .deep x => forcedDeep E (← global x).cell
  | .state x =>
    let g ← global x
    let s ← Host.status g.cell
    return .state s.isPending (g.text cellText s)
  | .alias x y =>
    let g ← global y
    Host.setWorld (·.define x g)
    return .done
  | .drop x =>
    Host.setWorld (·.drop x)
    return .done
  | .same x y => return .same ((← global x).cell == (← global y).cell)
  | .spawn x => forced E (← global x).cell
  | .race xs =>
    let threads ← xs.mapM fun x => do return Thread.demanding (← global x).cell
    return .results (← (← Host.gather E threads).mapM showResult)
  | .wrap w x =>
    let g ← global x
    Host.setWorld (·.defineLocal w (.wrapped g.cell))
    return .done
  | .link c w =>
    let l ← handle w
    let r ← Host.alloc (.pending (.follow l.cell))
    Host.setWorld (·.defineLocal c (.link r))
    return .done
  | .forceLocal w => forced E (← handle w).cell
  | .deepLocal w => forcedDeep E (← handle w).cell
  | .stateLocal w =>
    let s ← Host.status (← handle w).cell
    return .state s.isPending s.handleText
  | .takeLocal w =>
    match ← handle w with
    | .wrapped r => forced E r
    | .link r =>
      let s ← get
      match s.heap.claimBy 0 r with
      | (some (.granted _), heap) =>
        set { s with heap }
        return .taken
      | _ => forced E r
  | .settleLocal w e =>
    let l ← handle w
    let o ← Host.evaluate E (.eval e)
    match l with
    | .wrapped _ => return .done
    | .link r =>
      modify fun s => { s with heap := s.heap.settle o r }
      return .done

end Bench

end ByNeed.Shared
