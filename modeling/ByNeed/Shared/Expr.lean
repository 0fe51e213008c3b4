/-
A small language over shared cells: no local variables, but threads.
-/
import ByNeed.Shared
import ByNeed.Checked

namespace ByNeed.Shared

/-- expressions over named shared cells -/
inductive Expr where
  | int (n : Int64)
  | str (s : String)
  | var (x : String)
  | add (a b : Expr)
  | seq (a b : Expr)
  | tick (label : String) (a : Expr)
  | look (x : String) (a : Expr)
  | fail (e : EvalError)
  | abort (text : String)
  | recover (a b : Expr)
  | delay (a : Expr)
  | delayValue (a : Expr)
  | list (items : List Expr)
  /-- `n + 1` cells, each leading to the next, that add up `acc + n + ... + 1` -/
  | countDown (n : Nat) (acc : Int64)
  /-- on a thread of its own -/
  | fork (a : Expr)

inductive Value where
  | int (n : Int64)
  | str (s : String)
  | list (items : List Ref)
deriving Repr

namespace Value

def kind : Value → String
  | int _ => "Int"
  | str _ => "Str"
  | list _ => "List"

/-- the cells that deep forcing visits -/
def parts : Value → List Ref
  | list items => items
  | int _ | str _ => []

end Value

inductive Code where
  | eval (e : Expr)
  | value (e : Expr)
  | countDown (n : Nat) (acc : Int64)
  /-- leads to another cell -/
  | follow (r : Ref)

/-- the text of a bare shared cell -/
def cellText : Status → String
  | .unevaluated => "<sync thunk unevaluated>"
  | .forcing => "<sync thunk being forced>"
  | .evaluated => "<sync thunk evaluated>"
  | .failed => "<sync thunk failed>"

abbrev Scope := String → Option Global

/-- computations of the language; they may start threads -/
abbrev Task := Comp Unit Code Value

namespace Expr

def needInt : Value → Task Int64
  | .int n => pure n
  | v => .fail (.shape "Int" v.kind)

/-- the cell that stands for a list item -/
def suspend (S : Scope) (e : Expr) : Task Ref :=
  match e with
  | var x =>
    match S x with
    | some ⟨r, false⟩ => pure r
    | _ => .newDelay (.eval (var x))
  | e => .newDelay (.eval e)

def suspendAll (S : Scope) : List Expr → Task (List Ref)
  | [] => pure []
  | e :: es => do
    let r ← suspend S e
    let rs ← suspendAll S es
    return r :: rs

/-- runs an expression as far as its last step -/
def eval (S : Scope) (e : Expr) : Task (Next Code Value) :=
  let whnf (a : Expr) : Task Value := .whnf (.eval a)
  let goOn (b : Expr) : Task (Next Code Value) := pure (.code (.eval b))
  match e with
  | int n => pure (.value (.int n))
  | str s => pure (.value (.str s))
  | var x =>
    match S x with
    | some ⟨r, false⟩ => pure (.cell r)
    | some ⟨r, true⟩ => do return .value (← .demand r)
    | none => .fail (unbound x)
  | add a b => do
    let x ← needInt (← whnf a)
    let y ← needInt (← whnf b)
    return .value (.int (← .ofOutcome (Checked.add x y)))
  | seq a b => do
    let _ ← whnf a
    goOn b
  | tick label a => do
    .record label
    goOn a
  | look x a => do
    match S x with
    | some g =>
      .record (x ++ "=" ++ g.text cellText (← .statusOf g.cell))
      goOn a
    | none => .fail (unbound x)
  | fail err => .fail err
  | abort text => .abort text
  | recover a b => do
    match ← (whnf a).attempt with
    | .ok v => return .value v
    | .error err =>
      .record ("caught " ++ err.message)
      goOn b
  | delay a => do return .cell (← .newDelay (.eval a))
  | delayValue a => do return .cell (← .newDelay (.value a))
  | list items => do return .value (.list (← suspendAll S items))
  | countDown n acc => do return .cell (← .newDelay (.countDown n acc))
  | fork a =>
    .fork () (.eval a) fun
      | some (.ok v) => pure (.value v)
      | some (.error err) => .fail err
      | none => .fail (.user "thread panicked")

end Expr

def Code.body (S : Scope) : Code → Task (Next Code Value)
  | eval e => e.eval S
  | value e => do return .value (← .whnf (.eval e))
  | countDown 0 acc => pure (.value (.int acc))
  | countDown (n + 1) acc =>
    match Checked.fit? (acc.toInt + (n + 1)) with
    | some acc => do return .cell (← .newDelay (.countDown n acc))
    | none => .abort "attempt to add with overflow"
  | follow r => pure (.cell r)

def engine (S : Scope) (fuel : Nat) : Engine Unit Code Value := ⟨Code.body S, Value.parts, fuel⟩

end ByNeed.Shared
