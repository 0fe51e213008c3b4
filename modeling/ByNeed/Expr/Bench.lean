/-
A workbench for the expression language: named cells, computations taken out of their cells, and one step after
another on them.
-/
import ByNeed.Expr.Eval
import ByNeed.Expr.Handles
import ByNeed.Host

namespace ByNeed

/-- a computation that was taken out of its cell -/
structure Kept where
  cell : Ref
  code : Code

/-- named cells and computations, the latest first -/
structure Bench where
  names : List (String × Global)
  kept : List (String × Kept)

/-- how a step makes a cell -/
inductive Making where
  | delay
  | delayValue
  /-- the expression may refer to its own cell as `this` -/
  | knot
  | bareDelay
  | ready
  | bareReady
deriving DecidableEq, Repr

inductive Step where
  | define (x : String) (how : Making) (e : Expr)
  | force (x : String)
  | eval (e : Expr)
  | deep (x : String)
  | normalize (x : String)
  | state (x : String)
  | alias (x y : String)
  | drop (x : String)
  | same (x y : String)
  | take (x p : String)
  | run (p y : String)
  | settle (x : String) (e : Expr)

/-- a value made visible; cells show as handles, or as what they hold -/
inductive Shown where
  | unit
  | int (n : Int64)
  | bool (b : Bool)
  | str (s : String)
  | fn (text : String)
  | data (tag : Tag) (fields : List Shown) (text : Option String)
  | vector (items : List Shown)
  | opt (item : Option Shown)
  | box (item : Shown)
  | dyn (text : String)
  | handle (text : String)

inductive Reply where
  | done
  | value (v : Shown)
  | state (unevaluated : Bool) (text : String) (failed : Option Bool)
  | same (b : Bool)
  | taken
  | text (s : String)

namespace Bench

def empty : Bench := ⟨[], []⟩

def define (b : Bench) (x : String) (g : Global) : Bench :=
  { b with names := (x, g) :: b.names.filter fun p => p.1 != x }

def drop (b : Bench) (x : String) : Bench := { b with names := b.names.filter fun p => p.1 != x }

def keep (b : Bench) (p : String) (k : Kept) : Bench :=
  { b with kept := (p, k) :: b.kept.filter fun q => q.1 != p }

def unkeep (b : Bench) (p : String) : Bench := { b with kept := b.kept.filter fun q => q.1 != p }

/-- the cells that the bench holds on to -/
def handles (b : Bench) : List Ref := b.names.map (·.2.cell) ++ b.kept.flatMap (·.2.code.handles)

end Bench

abbrev BenchM := Host Bench Code Value

/-- the type of values as such, and how long a demand may take -/
structure Workshop where
  valueType : TypeId
  fuel : Nat

namespace Workshop

variable (shop : Workshop)

def engine : BenchM (Engine Empty Code Value) := do
  let names := (← Host.world).names
  return Scope.engine ⟨(names.lookup ·), shop.valueType⟩ shop.fuel

def global (x : String) : BenchM Global := do
  match (← Host.world).names.lookup x with
  | some g => return g
  | none => throw (.failed (unbound x))

def setWorld (f : Bench → Bench) : BenchM Unit := Host.withWorld fun b => ((), f b)

/-! ## Making values visible -/

/-- the text of a product through its handles -/
def productText (fields : List Ref) : BenchM (Option String) := do
  if fields.isEmpty then return none
  let parts ← fields.mapM fun r => return (← Host.status r).handleText
  return some ("Product" ++ toString fields.length ++ "(" ++ ", ".intercalate parts ++ ")")

mutual
/-- a value made visible, its cells by `part` -/
def showWith (part : Ref → BenchM Shown) : Value → BenchM Shown
  | .unit => pure .unit
  | .int n => pure (.int n)
  | .bool b => pure (.bool b)
  | .str s => pure (.str s)
  | .fn f => pure (.fn ("<function/" ++ toString f.missing ++ ">"))
  | .data d => do return .data d.tag (← d.fields.mapM part) (← productText d.fields)
  | .vector items => do return .vector (← showAll part items)
  | .opt none => pure (.opt none)
  | .opt (some v) => do return .opt (some (← showWith part v))
  | .box v => do return .box (← showWith part v)
  | .lazy r => part r
  | .dyn d => pure (.dyn (d.text Value.tag))

def showAll (part : Ref → BenchM Shown) : List Value → BenchM (List Shown)
  | [] => pure []
  | v :: vs => do
    let shown ← showWith part v
    let rest ← showAll part vs
    return shown :: rest
end

/-- cells show as handles -/
def showShallow (v : Value) : BenchM Shown := showWith (fun r => return .handle (← Host.status r).handleText) v

/-- cells show what they hold; `depth` bounds how far cells lead to cells -/
def showDeep : (depth : Nat) → Value → BenchM Shown
  | 0, _ => throw .exhausted
  | depth + 1, v => showWith (fun r => do showDeep depth (← Host.force (← shop.engine) r)) v

/-! ## Steps -/

/-- runs a computation that was taken out of its cell -/
def runKept (p : String) : BenchM (Tail Value) := do
  let some k := (← Host.world).kept.lookup p | throw (.failed (unbound p))
  setWorld (·.unkeep p)
  let E ← shop.engine
  match k.code with
  | .knot .. =>
    let s ← get
    if Handles.held s.heap (s.world.handles ++ k.code.handles) k.cell then Host.call E k.code
    else throw (.failed (.user "self-referential thunk was released"))
  | code => Host.call E code

def perform (step : Step) : BenchM Reply := do
  let E ← shop.engine
  match step with
  | .define x how e =>
    let g : Global ← match how with
      | .delay => do pure ⟨← Host.delay fun _ => .eval e [], false⟩
      | .delayValue => do pure ⟨← Host.delay fun _ => .value e [], false⟩
      | .knot => do pure ⟨← Host.delay fun self => .knot "this" e [] self, false⟩
      | .bareDelay => do pure ⟨← Host.delay fun _ => .eval e [], true⟩
      | .ready => do pure ⟨← Host.ready (← Host.whnf E (.eval e [])), false⟩
      | .bareReady => do pure ⟨← Host.ready (← Host.whnf E (.eval e [])), true⟩
    setWorld (·.define x g)
    return .done
  | .force x => return .value (← showShallow (← Host.force E (← global x).cell))
  | .eval e => return .value (← showShallow (← Host.whnf E (.eval e [])))
  | .deep x =>
    let v ← Host.forceDeep E (← global x).cell
    return .value (← shop.showDeep ((← get).heap.size + 1) v)
  | .normalize x =>
    let _ ← Host.forceDeep E (← global x).cell
    return .done
  | .state x =>
    let g ← global x
    let s ← Host.status g.cell
    return .state s.isPending (g.text Status.cellText s) (if g.bare then some (s == .failed) else none)
  | .alias x y =>
    let g ← global y
    setWorld (·.define x g)
    return .done
  | .drop x =>
    setWorld (·.drop x)
    return .done
  | .same x y => return .same ((← global x).cell == (← global y).cell)
  | .take x p =>
    let g ← global x
    let s ← get
    match s.heap.claim g.cell with
    | (.granted code, heap) =>
      set { s with heap }
      setWorld (·.keep p ⟨g.cell, code⟩)
      return .taken
    | (.outcome o, _) => return .value (← showShallow (← Host.ofOutcome o))
  | .run p y =>
    let r ← match ← shop.runKept p with
      | .value v => Host.ready v
      | .cell r => pure r
    setWorld (·.define y ⟨r, false⟩)
    return .text (← Host.status r).handleText
  | .settle x e =>
    let g ← global x
    let o ← Host.attempt (Host.whnf E (.eval e []))
    modify fun s => { s with heap := s.heap.settle o g.cell }
    return .done

end Workshop

end ByNeed
