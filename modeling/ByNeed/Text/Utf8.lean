/-
Text as bytes: UTF-8, read strictly or leniently.

The lenient reading replaces every longest piece that could still have begun a character by one replacement character.
-/
namespace ByNeed

abbrev Bytes := List UInt8

namespace Text

def encode (s : String) : Bytes := s.toUTF8.data.toList

/-- the text that these bytes spell, if they are valid -/
def decode? (bytes : Bytes) : Option String := String.fromUTF8? ⟨bytes.toArray⟩

/-- a character that has begun: its bits so far, how many bytes are still to come, and the range of the next one -/
structure Begun where
  bits : Nat
  more : Nat
  low : UInt8
  high : UInt8

/-- what the first byte of a character says: a whole character, a beginning, or nothing -/
inductive Lead where
  | whole (c : Char)
  | begun (b : Begun)
  | invalid

def lead (b : UInt8) : Lead :=
  let n := b.toNat
  if n < 0x80 then .whole (Char.ofNat n)
  else if n < 0xc2 then .invalid
  else if n < 0xe0 then .begun ⟨n - 0xc0, 1, 0x80, 0xbf⟩
  else if n == 0xe0 then .begun ⟨0, 2, 0xa0, 0xbf⟩
  else if n == 0xed then .begun ⟨0xd, 2, 0x80, 0x9f⟩
  else if n < 0xf0 then .begun ⟨n - 0xe0, 2, 0x80, 0xbf⟩
  else if n == 0xf0 then .begun ⟨0, 3, 0x90, 0xbf⟩
  else if n < 0xf4 then .begun ⟨n - 0xf0, 3, 0x80, 0xbf⟩
  else if n == 0xf4 then .begun ⟨4, 3, 0x80, 0x8f⟩
  else .invalid

def replacement : Char := Char.ofNat 0xfffd

def start (b : UInt8) : List Char × Option Begun :=
  match lead b with
  | .whole c => ([c], none)
  | .begun s => ([], some s)
  | .invalid => ([replacement], none)

/-- reads one byte, with the character that has begun -/
def feed : Option Begun → UInt8 → List Char × Option Begun
  | none, b => start b
  | some s, b =>
    if s.low ≤ b ∧ b ≤ s.high then
      let bits := s.bits * 64 + (b.toNat - 0x80)
      if s.more ≤ 1 then ([Char.ofNat bits], none) else ([], some ⟨bits, s.more - 1, 0x80, 0xbf⟩)
    else
      let (cs, next) := start b
      (replacement :: cs, next)

/-- the characters that bytes spell after a beginning; what never ends is replaced -/
def spell : Option Begun → Bytes → List Char
  | none, [] => []
  | some _, [] => [replacement]
  | s, b :: bytes =>
    let (cs, next) := feed s b
    cs ++ spell next bytes

/-- the text that these bytes spell, with what is invalid replaced -/
def decodeLossy (bytes : Bytes) : String := String.ofList (spell none bytes)

end Text

end ByNeed
