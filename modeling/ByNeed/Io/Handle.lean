/-
Buffered output.

A handle collects bytes in a buffer and passes them on to a device that may take fewer bytes than it is offered, take
none, or fail. What the device has taken (`delivered`) followed by what is still buffered is all that was written, less
what was lost to errors of writes that bypass the buffer. A line-buffered handle passes on everything up to the last
newline at once; a block-buffered one waits until the buffer is full. A device that says it was interrupted is asked
again.
-/
import ByNeed.Text.Utf8
import ByNeed.Error

namespace ByNeed

class Device (σ : Type) where
  /-- offers bytes; the answer says how many of them, from the front, were taken -/
  write : Bytes → σ → Except IoError Nat × σ
  /-- asks that everything taken be passed on -/
  flush : σ → Except IoError Unit × σ
  /-- how often the device may still say that it was interrupted -/
  patience : σ → Nat

/-- a device that shares nothing with others -/
instance {σ : Type} [Device σ] : Device (σ × Unit) where
  write bytes device := let (answer, own) := Device.write bytes device.1; (answer, own, ())
  flush device := let (answer, own) := Device.flush device.1; (answer, own, ())
  patience device := Device.patience device.1

/-- a handle with its buffer and the bytes that its device has taken -/
structure Handle (σ : Type) where
  name : String
  lineBuffered : Bool
  capacity : Nat
  buffer : Bytes
  delivered : Bytes
  device : σ

/-- what came of offering bytes to a device until all were taken -/
structure Poured (σ : Type) where
  result : Except IoError Unit
  taken : Bytes
  rest : Bytes
  device : σ

/-- offers bytes again and again; `zero` is the error if none are taken -/
def pour {σ : Type} [Device σ] (zero : IoError) : (fuel : Nat) → (taken rest : Bytes) → σ → Poured σ
  | 0, taken, rest, device => ⟨.error ⟨.interrupted, "interrupted"⟩, taken, rest, device⟩
  | fuel + 1, taken, rest, device =>
    if rest.isEmpty then ⟨.ok (), taken, rest, device⟩
    else
      match Device.write rest device with
      | (.ok 0, device) => ⟨.error zero, taken, rest, device⟩
      | (.ok n, device) => pour zero fuel (taken ++ rest.take n) (rest.drop n) device
      | (.error e, device) =>
        if e.kind = .interrupted then pour zero fuel taken rest device
        else ⟨.error e, taken, rest, device⟩

namespace Handle

variable {σ : Type}

def newline : UInt8 := 10

/-- operations on a handle; an error keeps what has been done -/
abbrev M (σ : Type) := EStateM IoError (Handle σ)

/-- splits bytes after the last newline -/
def splitLines (bytes : Bytes) : Option (Bytes × Bytes) :=
  let (tail, lines) := bytes.reverse.span (· != newline)
  if lines.isEmpty then none else some (lines.reverse, tail.reverse)

/-- steps that suffice to offer bytes until all are taken -/
def effort [Device σ] (bytes : Bytes) (device : σ) : Nat := bytes.length + Device.patience device + 1

/-- passes the buffer on; after an error the bytes not taken stay buffered -/
def drain [Device σ] : M σ Unit := fun h =>
  let p := pour ⟨.writeZero, "failed to write the buffered data"⟩ (effort h.buffer h.device) [] h.buffer h.device
  let h := { h with buffer := p.rest, delivered := h.delivered ++ p.taken, device := p.device }
  match p.result with
  | .ok () => .ok () h
  | .error e => .error e h

/-- passes bytes on past the buffer; after an error the bytes not taken are lost -/
def bypass [Device σ] (bytes : Bytes) : M σ Unit := fun h =>
  let p := pour ⟨.writeZero, "failed to write whole buffer"⟩ (effort bytes h.device) [] bytes h.device
  let h := { h with delivered := h.delivered ++ p.taken, device := p.device }
  match p.result with
  | .ok () => .ok () h
  | .error e => .error e h

def append (bytes : Bytes) : M σ Unit := modify fun h => { h with buffer := h.buffer ++ bytes }

def writeBlock [Device σ] (bytes : Bytes) : M σ Unit := do
  let h ← get
  let spare := h.capacity - h.buffer.length
  if bytes.length < spare then append bytes
  else
    if spare < bytes.length then drain
    if h.capacity ≤ bytes.length then bypass bytes else append bytes

def writeLines [Device σ] (bytes : Bytes) : M σ Unit := do
  let h ← get
  match splitLines bytes with
  | none =>
    if h.buffer.getLast? = some newline then drain
    writeBlock bytes
  | some (lines, tail) =>
    if h.buffer.isEmpty then bypass lines
    else
      writeBlock lines
      drain
    writeBlock tail

def writeBytes [Device σ] (bytes : Bytes) : M σ Unit := do
  if (← get).lineBuffered then writeLines bytes else writeBlock bytes

def write [Device σ] (s : String) : M σ Unit := writeBytes (Text.encode s)

/-- writes a text and, if that succeeds, a newline -/
def writeLine [Device σ] (s : String) : M σ Unit := do
  write s
  writeBytes [newline]

/-- passes everything on, buffer first -/
def flush [Device σ] : M σ Unit := do
  drain
  fun h =>
    match Device.flush h.device with
    | (.ok (), device) => .ok () { h with device }
    | (.error e, device) => .error e { h with device }

/-- writes texts one after another up to the first failure -/
def writeAll [Device σ] (texts : List String) : M σ Unit := texts.forM write

def fresh (name : String) (lineBuffered : Bool) (capacity : Nat) (device : σ) : Handle σ :=
  ⟨name, lineBuffered, capacity, [], [], device⟩

end Handle

end ByNeed
