/-
Expressions of a small call-by-need language over the runtime.
-/
import ByNeed.Dynamic

namespace ByNeed

inductive Arith where
  | add | sub | mul | div | eq | lt
deriving DecidableEq, Repr

/-- what can be asked of a dynamic value -/
inductive Question where
  | tag | typeName | text | int | bool | status
deriving DecidableEq, Repr

/-- functions the language is born with -/
inductive Builtin where
  /-- adds up its arguments in base 31, in application order -/
  | weigh (arity : Nat)
  | negate
  /-- the first of two arguments -/
  | const
deriving DecidableEq, Repr

/-- what of a value becomes the payload of a dynamic one -/
inductive Wrapping where
  /-- a constructor, with the type it belongs to -/
  | product
  /-- the value as it is -/
  | value
deriving DecidableEq, Repr

inductive Expr where
  | unit
  | bool (b : Bool)
  | int (n : Int64)
  | str (s : String)
  | var (x : String)
  | arith (op : Arith) (a b : Expr)
  | cond (c t f : Expr)
  | seq (a b : Expr)
  | deepSeq (a b : Expr)
  | letIn (x : String) (a b : Expr)
  | letRec (x : String) (a b : Expr)
  | tick (label : String) (a : Expr)
  | look (x : String) (a : Expr)
  | fail (e : EvalError)
  | abort (text : String)
  | recover (a b : Expr)
  | delay (a : Expr)
  | delayValue (a : Expr)
  | lambda (params : List String) (body : Expr)
  | builtin (f : Builtin)
  | bind (f : Expr) (args : List Expr)
  | apply (f : Expr) (args : List Expr)
  | run (f : Expr) (args : List Expr)
  | coerce (f : Expr)
  | arity (f : Expr)
  | con (type : TypeId) (tag : Tag) (args : List Expr)
  /-- field `i` of a product of `n` fields, bound or applied -/
  | field (n i : Nat) (a : Expr)
  | accessor (n i : Nat)
  | tag (a : Expr)
  | case (a : Expr) (alts : List (Tag × List String × Expr))
  /-- the cell itself, as a value -/
  | lazy (a : Expr)
  | vector (items : List Expr)
  | some (a : Expr)
  | none
  | box (a : Expr)
  | nth (a : Expr) (i : Nat)
  | unbox (a : Expr)
  | dynInt (n : Int32)
  | dynBool (b : Bool)
  | dynData (what : Wrapping) (a : Expr)
  | dynSealed (what : Wrapping) (a : Expr)
  | dynAsk (q : Question) (a : Expr)
  /-- field `i` of a constructor of this type -/
  | dynField (type : TypeId) (i : Nat) (a : Expr)
  | dynExpect (type : TypeId) (a : Expr)

end ByNeed
