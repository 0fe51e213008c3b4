/-
Settings of the runtime, and reading them from environment variables.

Variables are read in a fixed order, and the first one that cannot be read is reported with its text as it was given.
-/
import ByNeed.Text

namespace ByNeed

/-- how much is logged, from least to most -/
inductive Level where
  | error
  | warn
  | info
  | debug
  | trace
deriving DecidableEq, Repr

namespace Level

def all : List Level := [error, warn, info, debug, trace]

/-- the name in capitals -/
def name : Level → String
  | error => "ERROR"
  | warn => "WARN"
  | info => "INFO"
  | debug => "DEBUG"
  | trace => "TRACE"

/-- the name with one capital -/
def title : Level → String
  | error => "Error"
  | warn => "Warn"
  | info => "Info"
  | debug => "Debug"
  | trace => "Trace"

/-- the level with this number, counted from 1, or with this name in any ASCII case -/
def ofChars? (cs : List Char) : Option Level :=
  match (Text.size? cs).bind fun n => if n = 0 then none else all[n - 1]? with
  | some level => some level
  | none => all.find? fun level => Text.lowerAscii level.name.toList == Text.lowerAscii cs

end Level

structure Settings where
  /-- output is passed on at every newline -/
  lineBuffered : Bool
  /-- bytes that an output buffer holds -/
  capacity : Nat
  level : Level
  /-- output is kept in memory -/
  captured : Bool
deriving DecidableEq, Repr

/-- a variable that cannot be read, with its text -/
inductive SettingsError where
  | notBool (name value : String)
  | notCapacity (name value : String)
  | notLevel (name value : String)
deriving DecidableEq, Repr

def SettingsError.message : SettingsError → String
  | notBool name value => name ++ ": expected a boolean, got " ++ Text.showString value
  | notCapacity name value => name ++ ": expected a positive buffer size, got " ++ Text.showString value
  | notLevel name value => name ++ ": unknown log level " ++ Text.showString value

namespace Settings

def lineBufferedVar : String := "LRT_LINE_BUFFERED"

def capacityVar : String := "LRT_BUFFER_CAPACITY"

def levelVar : String := "LRT_LOG"

def default : Settings := ⟨true, 8192, .warn, false⟩

/-- the default settings with output kept in memory -/
def memory : Settings := { default with captured := true }

/-- a truth value, in one of its accepted spellings -/
def bool? (value : String) : Option Bool :=
  let word := String.ofList (Text.lowerAscii (Text.trim value.toList))
  if word ∈ ["1", "true", "yes", "on"] then some true
  else if word ∈ ["0", "false", "no", "off"] then some false
  else none

/-- a positive number of bytes -/
def capacity? (value : String) : Option Nat := (Text.size? (Text.trim value.toList)).filter (0 < ·)

def level? (value : String) : Option Level := Level.ofChars? (Text.trim value.toList)

def read {α : Type} (lookup : String → Option String) (name : String) (parse : String → Option α)
    (wrong : String → String → SettingsError) (absent : α) : Except SettingsError α :=
  match lookup name with
  | none => .ok absent
  | some value =>
    match parse value with
    | some a => .ok a
    | none => .error (wrong name value)

/-- the settings that environment variables ask for -/
def ofLookup (lookup : String → Option String) : Except SettingsError Settings := do
  let lineBuffered ← read lookup lineBufferedVar bool? .notBool default.lineBuffered
  let capacity ← read lookup capacityVar capacity? .notCapacity default.capacity
  let level ← read lookup levelVar level? .notLevel default.level
  return ⟨lineBuffered, capacity, level, false⟩

def boolText (b : Bool) : String := if b then "true" else "false"

def text (s : Settings) : String :=
  "RuntimeConfig \x7b line_buffered: " ++ boolText s.lineBuffered ++ ", buffer_capacity: " ++ toString s.capacity ++
    ", log_level: Level(" ++ s.level.title ++ "), capture_output: " ++ boolText s.captured ++ " \x7d"

end Settings

end ByNeed
