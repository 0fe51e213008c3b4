/-
Deep copies: a value is written as a text and read back from it, so the copy shares nothing with it.

Writing fails on keys that are no text and on borrowed cells. Reading fails on null where a number is wanted and beyond the
depth limit. A present option whose content is written as null is no failure: its copy is absent.
-/
import ByNeed.Duplicate.Schema

namespace ByNeed

/-- a type with the name that reports give it -/
structure NamedSchema where
  name : String
  schema : Schema
deriving Repr, Inhabited

namespace Duplicate

/-- the two halves of a duplication -/
inductive Stage where
  | serialization
  | deserialization
deriving DecidableEq, Repr

/-- why a text could not be read back, with the column of the place -/
inductive ReadError where
  | tooDeep (column : Nat)
  | malformed (column : Nat)
  | mismatch (m : Schema.Mismatch)
deriving DecidableEq, Repr

inductive Cause where
  | refused (refusal : Datum.Refusal)
  | unreadable (error : ReadError)
deriving DecidableEq, Repr

structure Error where
  typeName : String
  cause : Cause
deriving DecidableEq, Repr

def formatName : Binary.Format → String
  | .single => "f32"
  | .double => "f64"

/-- a complaint with its place; the text has one line only -/
def located (complaint : String) (column : Nat) : String := complaint ++ " at line 1 column " ++ toString column

def ReadError.message : ReadError → String
  | tooDeep column => located "recursion limit exceeded" column
  | malformed column => located "expected value" column
  | mismatch (.nullNumber format column) => located ("invalid type: null, expected " ++ formatName format) column
  | mismatch (.outOfRange column) => located "number out of range" column
  | mismatch (.unexpected column) => located "invalid type" column

def Cause.stage : Cause → Stage
  | refused _ => .serialization
  | unreadable _ => .deserialization

def Cause.message : Cause → String
  | refused refusal => refusal.message
  | unreadable error => error.message

def Stage.text : Stage → String
  | serialization => "serialization"
  | deserialization => "deserialization"

def Error.message (e : Error) : String := "error in " ++ e.cause.stage.text ++ " of " ++ e.typeName

/-- the error of a text of `bytes` bytes; a fault is at the first byte that was left -/
def ReadError.ofFault (bytes : Nat) : Json.Fault → ReadError
  | .tooDeep left => tooDeep (bytes - left + 1)
  | .malformed left => malformed (bytes - left + 1)

def readBack (s : Schema) (text : List Char) : Except ReadError Datum :=
  match Json.parse text with
  | .error fault => .error (.ofFault (Json.bytes text) fault)
  | .ok j =>
    match s.read 0 j with
    | .error m => .error (.mismatch m)
    | .ok v => .ok v

end Duplicate

/-- a deep copy of a value of a type -/
def duplicate (t : NamedSchema) (v : Datum) : Except Duplicate.Error Datum :=
  match v.toJson with
  | .error refusal => .error ⟨t.name, .refused refusal⟩
  | .ok j =>
    match Duplicate.readBack t.schema j.chars with
    | .error error => .error ⟨t.name, .unreadable error⟩
    | .ok copy => .ok copy

end ByNeed
