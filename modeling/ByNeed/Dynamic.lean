/-
Values whose type is not known where they are used: compact integers, truth values, and payloads with a type of their
own, which are data or sealed.
-/
import ByNeed.Error

namespace ByNeed

/-- a constructor tag: the position of a constructor in its sum type -/
abbrev Tag := Int32

/-- a type, with the name it is shown by; two types may have one name -/
structure TypeId where
  id : Nat
  name : String
deriving DecidableEq, Repr

/-- a value of unknown type, with payloads in `P` -/
inductive Dynamic (P : Type) where
  /-- a compact integer; also a constructor without fields, as its tag -/
  | int (n : Int32)
  | bool (b : Bool)
  /-- a payload that has a tag and parts -/
  | data (type : TypeId) (payload : P)
  /-- a payload that shows nothing -/
  | sealed (type : TypeId) (payload : P)
deriving Repr

namespace Dynamic

variable {P : Type}

def asInt? : Dynamic P → Option Int32
  | int n => some n
  | _ => none

def asBool? : Dynamic P → Option Bool
  | bool b => some b
  | _ => none

def typeName : Dynamic P → String
  | int _ => "Int"
  | bool _ => "Bool"
  | data type _ => type.name
  | sealed _ _ => "opaque value"

/-- the payload, sealed or not, if it has this type -/
def payload? (type : TypeId) : Dynamic P → Option P
  | data own payload | sealed own payload => if own = type then some payload else none
  | int _ | bool _ => none

/-- the payload, which has to have this type; else both shapes are named -/
def expect (type : TypeId) (d : Dynamic P) : Outcome P :=
  match d.payload? type with
  | some payload => .ok payload
  | none => .error (.shape type.name d.typeName)

/-- the text of a dynamic value; data show type and tag only -/
def text (tagOf : P → Tag) : Dynamic P → String
  | int n => toString n.toInt
  | bool b => if b then "true" else "false"
  | data type payload => "<" ++ type.name ++ " #" ++ toString (tagOf payload).toInt ++ ">"
  | sealed _ _ => "<opaque>"

end Dynamic

/-- the exit status of a truth value: success is 0 -/
def statusOfBool (b : Bool) : Int32 := if b then 0 else 1

/-- the exit status that a dynamic value stands for -/
def Dynamic.status? {P : Type} : Dynamic P → Option Int32
  | .int n => some n
  | .bool b => some (statusOfBool b)
  | .data _ _ | .sealed _ _ => none

end ByNeed
