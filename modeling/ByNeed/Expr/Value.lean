/-
Values of the expression language, and the code its cells hold.

Values nest to any depth: a vector holds values, and a value is a cell only where it says so (`Value.lazy`). What is
normalized of a value are its own cells, from left to right, wherever they stand in it (`Value.parts`).
-/
import ByNeed.Expr.Syntax
import ByNeed.Fn

namespace ByNeed

/-- local variables, innermost first -/
abbrev Env := List (String × Ref)

inductive FnCode where
  /-- `params` name the delivered arguments, in delivery order -/
  | closure (params : List String) (body : Expr) (env : Env)
  | builtin (f : Builtin)
  /-- field `i` of a product of `n` fields -/
  | accessor (n i : Nat)

/-- a constructor of a type, with its lazy fields -/
structure Data where
  type : TypeId
  tag : Tag
  fields : List Ref
deriving DecidableEq, Repr

inductive Value where
  | unit
  | int (n : Int64)
  | bool (b : Bool)
  | str (s : String)
  | fn (f : Fn FnCode)
  | data (d : Data)
  | vector (items : List Value)
  | opt (item : Option Value)
  | box (item : Value)
  /-- a cell, which may have to be run for its value -/
  | lazy (r : Ref)
  | dyn (d : Dynamic Value)

inductive Code where
  /-- evaluate an expression as far as its last step -/
  | eval (e : Expr) (env : Env)
  /-- evaluate an expression to a value -/
  | value (e : Expr) (env : Env)
  /-- evaluate an expression that may refer to its own cell; the code does not keep that cell alive -/
  | knot (x : String) (e : Expr) (env : Env) (self : Ref)
  /-- call a function -/
  | enter (f : FnCode) (delivered : List Ref)
  | failing (e : EvalError)

namespace Value

/-- a product with `n` fields, as a shape -/
def productKind (n : Nat) : String := "D" ++ toString n

/-- the name of a value's shape -/
def kind : Value → String
  | unit => "Unit"
  | int _ => "Int"
  | bool _ => "Bool"
  | str _ => "Str"
  | fn f => "F" ++ toString f.missing
  | data d => productKind d.fields.length
  | vector _ => "Vec"
  | opt _ => "Opt"
  | box _ => "Box"
  | lazy _ => "Ref"
  | dyn _ => "Dyn"

/-- constructors have a tag, and so have the dynamic values that stand for one; anything else has tag 0 -/
def tag : Value → Tag
  | data d => d.tag
  | dyn (.int n) => n
  | dyn (.data _ payload) => payload.tag
  | _ => 0

def fields : Value → List Ref
  | data d => d.fields
  | _ => []

/-- what goes on in place of a value that stands in another: the cell that it is, or itself -/
def next : Value → Next Code Value
  | lazy r => .cell r
  | v => .value v

mutual
/-- the cells that deep forcing visits -/
def parts : Value → List Ref
  | data d => d.fields
  | vector items => partsAll items
  | opt (some v) => v.parts
  | box v => v.parts
  | lazy r => [r]
  | dyn (.data _ payload) => payload.parts
  | unit | int _ | bool _ | str _ | fn _ | opt none | dyn (.int _) | dyn (.bool _) | dyn (.sealed _ _) => []

def partsAll : List Value → List Ref
  | [] => []
  | v :: vs => v.parts ++ partsAll vs
end

end Value

/-! ## Handles: the cells that something keeps alive -/

def Env.handles (env : Env) : List Ref := env.map Prod.snd

def FnCode.handles : FnCode → List Ref
  | closure _ _ env => env.handles
  | builtin _ | accessor _ _ => []

def Code.handles : Code → List Ref
  | eval _ env | value _ env | knot _ _ env _ => env.handles
  | enter f delivered => f.handles ++ delivered
  | failing _ => []

namespace Value

mutual
def handles : Value → List Ref
  | fn f => f.code.handles ++ f.bound
  | data d => d.fields
  | vector items => handlesAll items
  | opt (some v) => v.handles
  | box v => v.handles
  | lazy r => [r]
  | dyn (.data _ payload) | dyn (.sealed _ payload) => payload.handles
  | unit | int _ | bool _ | str _ | opt none | dyn (.int _) | dyn (.bool _) => []

def handlesAll : List Value → List Ref
  | [] => []
  | v :: vs => v.handles ++ handlesAll vs
end

end Value

end ByNeed
