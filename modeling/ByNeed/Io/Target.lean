/-
Devices: memory, which takes everything, and sinks with limited room that keep a record of what was asked of them.
-/
import ByNeed.Io.Handle

namespace ByNeed

inductive Call where
  | took (n offered : Nat)
  | refused (offered : Nat)
  | flush
deriving DecidableEq, Repr

def Call.text : Call → String
  | took n offered => "write " ++ toString n ++ " of " ++ toString offered
  | refused offered => "write " ++ toString offered ++ " refused"
  | flush => "flush"

/-- a sink with limited room; calls stand latest first -/
structure Sink where
  /-- bytes it can still take; `none` if there is no limit -/
  room : Option Nat
  /-- most bytes taken at once -/
  most : Option Nat
  /-- the error when no byte can be taken; without one it takes none and says so -/
  onFull : Option IoError
  onFlush : Option IoError
  calls : List Call
deriving Repr

namespace Sink

/-- how many of the offered bytes fit -/
def fits (s : Sink) (offered : Nat) : Nat :=
  let n := (s.room.map (min offered)).getD offered
  (s.most.map (min n)).getD n

def write (bytes : Bytes) (s : Sink) : Except IoError Nat × Sink :=
  match s.fits bytes.length with
  | 0 =>
    let s := { s with calls := .refused bytes.length :: s.calls }
    match s.onFull with
    | some e => (.error e, s)
    | none => (.ok 0, s)
  | n => (.ok n, { s with room := s.room.map (· - n), calls := .took n bytes.length :: s.calls })

def flush (s : Sink) : Except IoError Unit × Sink :=
  let s := { s with calls := .flush :: s.calls }
  match s.onFlush with
  | some e => (.error e, s)
  | none => (.ok (), s)

end Sink

inductive Target where
  | memory
  | sink (s : Sink)
deriving Repr

namespace Target

def write (bytes : Bytes) : Target → Except IoError Nat × Target
  | memory => (.ok bytes.length, memory)
  | sink s => let (answer, s) := s.write bytes; (answer, sink s)

def flush : Target → Except IoError Unit × Target
  | memory => (.ok (), memory)
  | sink s => let (answer, s) := s.flush; (answer, sink s)

instance : Device Target where
  write := write
  flush := flush
  patience _ := 0

def isMemory : Target → Bool
  | memory => true
  | sink _ => false

end Target

/-- the text that has reached memory, if output is kept there; what is still buffered is not part of it -/
def Handle.captured? (h : Handle Target) : Option String :=
  if h.device.isMemory then some (Text.decodeLossy h.delivered) else none

end ByNeed
