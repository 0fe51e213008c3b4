/-
Lines from input that arrives in pieces.

A source hands out chunks of bytes, and now and then a failure. Reading a line takes bytes up to a newline or the end of
input, over as many chunks as it needs. A failure loses the part of the line already read; being interrupted is no
failure.
-/
import ByNeed.Text.Utf8
import ByNeed.Error

namespace ByNeed

/-- what one read of a source gives -/
inductive Chunk where
  | data (bytes : Bytes)
  | failure (e : IoError)
deriving DecidableEq, Repr

/-- the reads still to come; after the last the input has ended -/
abbrev Source := List Chunk

namespace Source

def newline : UInt8 := 10

def carriageReturn : UInt8 := 13

/-- a line without its end: a newline, or a carriage return and a newline -/
def stripEnd (line : Bytes) : Bytes :=
  match line.reverse with
  | 10 :: 13 :: rest => rest.reverse
  | 10 :: rest => rest.reverse
  | _ => line

def finish (line : Bytes) : Except IoError String :=
  match Text.decode? (stripEnd line) with
  | some s => .ok s
  | none => .error ⟨.invalidData, "stream did not contain valid UTF-8"⟩

/-- splits bytes after the first newline -/
def splitLine (bytes : Bytes) : Option (Bytes × Bytes) :=
  match bytes.span (· != newline) with
  | (_, []) => none
  | (line, b :: rest) => some (line ++ [b], rest)

/-- reads the rest of a line of which `line` is read already; `none` at the end of input -/
def readFrom (line : Bytes) : Source → Except IoError (Option String) × Source
  | [] => (if line.isEmpty then .ok none else some <$> finish line, [])
  | .data bytes :: source =>
    match splitLine bytes with
    | some (first, rest) => (some <$> finish (line ++ first), .data rest :: source)
    | none => readFrom (line ++ bytes) source
  | .failure e :: source => if e.kind = .interrupted then readFrom line source else (.error e, source)

def readLine (source : Source) : Except IoError (Option String) × Source := readFrom [] source

end Source

end ByNeed
