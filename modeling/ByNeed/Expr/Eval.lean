/-
Evaluation of expressions.

`Expr.eval` runs an expression as far as its last step: tail positions go on as code, so loops written as tail calls
walk cell after cell and do not nest. Arguments and fields are passed as cells: a literal is ready, a variable is its
own cell, anything else is delayed.
-/
import ByNeed.Expr.Value
import ByNeed.Checked
import ByNeed.Machine

namespace ByNeed

/-- the text of a bare cell -/
def Status.cellText : Status → String
  | unevaluated => "<thunk unevaluated>"
  | forcing => "<thunk forcing>"
  | evaluated => "<thunk evaluated>"
  | failed => "<thunk failed>"

/-- what surrounds an expression: the named cells, and the type of values as such -/
structure Scope where
  global : String → Option Global
  valueType : TypeId

abbrev Task := Comp Empty Code Value

namespace Expr

/-- local variables come before named cells -/
def lookup (S : Scope) (env : Env) (x : String) : Option Global :=
  match env.lookup x with
  | .some r => .some ⟨r, false⟩
  | .none => S.global x

/-- a literal needs no evaluation -/
def literal? : Expr → Option Value
  | unit => .some .unit
  | bool b => .some (.bool b)
  | int n => .some (.int n)
  | str s => .some (.str s)
  | _ => .none

/-- the cell that stands for an argument -/
def suspend (S : Scope) (env : Env) (e : Expr) : Task Ref :=
  match e with
  | var x =>
    match lookup S env x with
    | .some g => pure g.cell
    | .none => .newDelay (.failing (unbound x))
  | e =>
    match e.literal? with
    | .some v => .newReady v
    | .none => .newDelay (.eval e env)

/-- the cells that stand for arguments, made in order -/
def suspendAll (S : Scope) (env : Env) : List Expr → Task (List Ref)
  | [] => pure []
  | e :: es => do
    let r ← suspend S env e
    let rs ← suspendAll S env es
    return r :: rs

/-! ## Shapes that are needed -/

def mismatch {α : Type} (expected : String) (v : Value) : Task α := .fail (.shape expected v.kind)

def needInt : Value → Task Int64
  | .int n => pure n
  | v => mismatch "Int" v

def needBool : Value → Task Bool
  | .bool b => pure b
  | v => mismatch "Bool" v

def needFn : Value → Task (Fn FnCode)
  | .fn f => pure f
  | v => mismatch "function" v

def needData : Value → Task Data
  | .data d => pure d
  | v => mismatch "data" v

def needDyn : Value → Task (Dynamic Value)
  | .dyn d => pure d
  | v => mismatch "Dyn" v

/-- a function that waits for exactly `n` arguments -/
def needArity (n : Nat) (v : Value) : Task (Fn FnCode) :=
  match v with
  | .fn f => if f.missing = n then pure f else mismatch "function of that arity" v
  | v => mismatch "function of that arity" v

/-- field `i` of a product of `n` fields -/
def needField (n i : Nat) (v : Value) : Task Ref :=
  match v with
  | .data d =>
    if d.fields.length = n then
      match d.fields[i]? with
      | .some r => pure r
      | .none => mismatch (Value.productKind n) v
    else mismatch (Value.productKind n) v
  | v => mismatch (Value.productKind n) v

/-! ## Functions -/

/-- adds up integers in base 31, wrapping around -/
def weigh (acc : Int64) : List Ref → Task Int64
  | [] => pure acc
  | r :: rs => do
    let n ← needInt (← .demand r)
    weigh (acc * 31 + n) rs

def enter (f : FnCode) (delivered : List Ref) : Task (Next Code Value) :=
  match f with
  | .closure params body env => pure (.code (.eval body ((params.zip delivered).reverse ++ env)))
  | .builtin (.weigh _) => do return .value (.int (← weigh 0 delivered.reverse))
  | .builtin .negate => do
    match delivered with
    | [r] => return .value (.int (← .ofOutcome (Checked.neg (← needInt (← .demand r)))))
    | _ => .fail (.pattern "call")
  | .builtin .const =>
    match delivered with
    | [_, r] => pure (.cell r)
    | _ => .fail (.pattern "call")
  | .accessor n i => do
    match delivered with
    | [r] => return .cell (← needField n i (← .demand r))
    | _ => .fail (.pattern "call")

/-- how many arguments a built-in function takes -/
def builtinArity : Builtin → Nat
  | .weigh n => n
  | .negate => 1
  | .const => 2

/-- binds arguments one at a time; a call that is complete too early is forced to go on -/
def bindAll (v : Value) : List Ref → Task (Next Code Value)
  | [] => pure (.value v)
  | a :: args => do
    let f ← needFn v
    match f.bindOne a with
    | .waiting g => bindAll (.fn g) args
    | .saturated code delivered =>
      let r ← .newDelay (.enter code delivered)
      if args.isEmpty then return .cell r
      else bindAll (← .demand r) args

def applyAll (v : Value) (args : List Ref) : Task (Next Code Value) := do
  let f ← needArity args.length v
  return .cell (← .newDelay (.enter f.code (f.applyAll args)))

/-! ## Expressions -/

def arithmetic (op : Arith) (x y : Int64) : Outcome Value :=
  match op with
  | .add => .int <$> Checked.add x y
  | .sub => .int <$> Checked.sub x y
  | .mul => .int <$> Checked.mul x y
  | .div => .int <$> Checked.div x y
  | .eq => .ok (.bool (x == y))
  | .lt => .ok (.bool (x < y))

/-- an answer in a cell of its own, if there is one -/
def optional (v : Option Value) : Task Value :=
  match v with
  | .some v => do return .opt (.some (.lazy (← .newReady v)))
  | .none => pure (.opt .none)

def ask (d : Dynamic Value) : Question → Task Value
  | .tag => pure (.int (Value.dyn d).tag.toInt64)
  | .typeName => pure (.str d.typeName)
  | .text => pure (.str (d.text Value.tag))
  | .int => optional (d.asInt?.map fun n => .int n.toInt64)
  | .bool => optional (d.asBool?.map .bool)
  | .status => optional (d.status?.map fun n => .int n.toInt64)

/-- the payload that is made of a value, with its type -/
def wrap (S : Scope) (what : Wrapping) (v : Value) : Task (TypeId × Value) :=
  match what with
  | .product => do
    let d ← needData v
    return (d.type, .data d)
  | .value => pure (S.valueType, v)

/-- field `i` of a payload of this type -/
def dynamicField (type : TypeId) (i : Nat) (d : Dynamic Value) : Task Ref := do
  let v ← .ofOutcome (d.expect type)
  match v.fields[i]? with
  | .some r => return r
  | .none => .fail (.pattern "field")

/-- the values of expressions, found in order -/
def evalAll (env : Env) : List Expr → Task (List Value)
  | [] => pure []
  | e :: es => do
    let v ← .whnf (.eval e env)
    let vs ← evalAll env es
    return v :: vs

/-- the first alternative for a tag -/
def select (tag : Tag) (alts : List (Tag × List String × Expr)) : Option (List String × Expr) :=
  (alts.find? fun alt => alt.1 == tag).map Prod.snd

/-- runs an expression as far as its last step -/
def eval (S : Scope) (env : Env) (e : Expr) : Task (Next Code Value) :=
  let whnf (a : Expr) : Task Value := .whnf (.eval a env)
  let tail (b : Expr) (env : Env) : Task (Next Code Value) := pure (.code (.eval b env))
  let value (v : Value) : Task (Next Code Value) := pure (.value v)
  match e with
  | unit => value .unit
  | bool b => value (.bool b)
  | int n => value (.int n)
  | str s => value (.str s)
  | var x =>
    match lookup S env x with
    | .some g => pure (.cell g.cell)
    | .none => .fail (unbound x)
  | arith op a b => do
    let x ← needInt (← whnf a)
    let y ← needInt (← whnf b)
    value (← .ofOutcome (arithmetic op x y))
  | cond c t f => do
    let b ← needBool (← whnf c)
    tail (if b then t else f) env
  | seq a b => do
    let _ ← whnf a
    tail b env
  | deepSeq a b => do
    let v ← whnf a
    let _ ← .deepen v
    tail b env
  | letIn x a b => do
    let r ← suspend S env a
    tail b ((x, r) :: env)
  | letRec x a b => .delay (fun self => .knot x a env self) fun r => tail b ((x, r) :: env)
  | tick label a => do
    .record label
    tail a env
  | look x a => do
    match lookup S env x with
    | .some g =>
      let s ← .statusOf g.cell
      .record (x ++ "=" ++ g.text Status.cellText s)
      tail a env
    | .none => .fail (unbound x)
  | fail err => .fail err
  | abort text => .abort text
  | recover a b => do
    match ← (whnf a).attempt with
    | .ok v => value v
    | .error err =>
      .record ("caught " ++ err.message)
      tail b env
  | delay a => do return .cell (← .newDelay (.eval a env))
  | delayValue a => do return .cell (← .newDelay (.value a env))
  | lambda params body => value (.fn (.ofCode (.closure params body env) params.length))
  | builtin f => value (.fn (.ofCode (.builtin f) (builtinArity f)))
  | bind f args => do
    let v ← whnf f
    bindAll v (← suspendAll S env args)
  | apply f args => do
    let v ← whnf f
    applyAll v (← suspendAll S env args)
  | run f args => do
    let v ← whnf f
    let rs ← suspendAll S env args
    let f ← needArity rs.length v
    return .code (.enter f.code (f.deliver rs))
  | coerce f => do value (.fn (← needFn (← whnf f)))
  | arity f => do
    match ← whnf f with
    | .fn f => value (.int (Int64.ofNat f.missing))
    | .data d =>
      if d.fields.isEmpty then mismatch "function" (.data d)
      else value (.int (Int64.ofNat d.fields.length))
    | v => mismatch "function" v
  | con type t args => do value (.data ⟨type, t, ← suspendAll S env args⟩)
  | field n i a => do
    let r ← suspend S env a
    return .cell (← .newDelay (.enter (.accessor n i) [r]))
  | accessor n i => value (.fn (.ofCode (.accessor n i) 1))
  | tag a => do value (.int (← whnf a).tag.toInt64)
  | case a alts => do
    let d ← needData (← whnf a)
    match select d.tag alts with
    | .some (vars, body) => tail body ((vars.zip d.fields).reverse ++ env)
    | .none => .fail (.pattern "case")
  | lazy a => do value (.lazy (← suspend S env a))
  | vector items => do value (.vector (← evalAll env items))
  | some a => do value (.opt (.some (← whnf a)))
  | none => value (.opt .none)
  | box a => do value (.box (← whnf a))
  | nth a i => do
    match ← whnf a with
    | .vector items =>
      match items[i]? with
      | .some v => return v.next
      | .none => .fail (.pattern "nth")
    | v => mismatch "Vec" v
  | unbox a => do
    match ← whnf a with
    | .box v | .opt (.some v) => return v.next
    | .opt .none => .fail (.pattern "unbox")
    | v => mismatch "Box" v
  | dynInt n => value (.dyn (.int n))
  | dynBool b => value (.dyn (.bool b))
  | dynData what a => do
    let (type, payload) ← wrap S what (← whnf a)
    value (.dyn (.data type payload))
  | dynSealed what a => do
    let (type, payload) ← wrap S what (← whnf a)
    value (.dyn (.sealed type payload))
  | dynAsk q a => do value (← ask (← needDyn (← whnf a)) q)
  | dynField type i a => do return .cell (← dynamicField type i (← needDyn (← whnf a)))
  | dynExpect type a => do value (← .ofOutcome ((← needDyn (← whnf a)).expect type))

end Expr

def Code.body (S : Scope) : Code → Task (Next Code Value)
  | eval e env => e.eval S env
  | value e env => do return .value (← .whnf (.eval e env))
  | knot x e env self => e.eval S ((x, self) :: env)
  | enter f delivered => Expr.enter f delivered
  | failing e => .fail e

def Scope.engine (S : Scope) (fuel : Nat) : Engine Empty Code Value := ⟨Code.body S, Value.parts, fuel⟩

end ByNeed
