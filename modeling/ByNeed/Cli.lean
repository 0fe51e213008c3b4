/-
The command line: options, then a program, then its arguments.

A line that cannot be read ends with status 2 before anything else is looked at. Settings that cannot be read end with
status 1, and so does a program that fails.
-/
import ByNeed.Demo.Programs
import ByNeed.Text

namespace ByNeed.Cli

/-- options, each given at most once -/
structure Options where
  verbose : Bool
  blockBuffered : Bool
deriving DecidableEq, Repr

/-- what a command line asks for -/
inductive Request where
  | version
  | run (options : Options) (program : Demo.Program)
deriving DecidableEq, Repr

/-- the arguments of a program; the first double dash only says that no options follow -/
def operands (args : List String) : List String := args.erase "--"

def program? (name : String) (args : List String) : Option Demo.Program :=
  match name, operands args with
  | "exit", [code] => .exit <$> Text.code? code.toList
  | "bool", ["true"] => some (.bool true)
  | "bool", ["false"] => some (.bool false)
  | "request", codes => .request <$> codes.mapM fun code => Text.code? code.toList
  | "primes", [] => some (.primes 10)
  | "primes", [count] => .primes <$> Text.size? count.toList
  | "fib", [n] => .fib <$> Text.size? n.toList
  | "ones", [] => some (.ones 5)
  | "ones", [count] => .ones <$> Text.size? count.toList
  | "echo", [] => some .echo
  | "diverge", [] => some .diverge
  | _, _ => none

/-- the options there are; asking for the version ends the reading of the line -/
inductive Flag where
  | verbose | blockBuffered | version
deriving DecidableEq, Repr

def shortFlag? : Char → Option Flag
  | 'v' => some .verbose
  | 'V' => some .version
  | _ => none

/-- the options that one word in front of the program gives, in order; an unknown one is `none` -/
def flagsOf (word : String) : List (Option Flag) :=
  match word with
  | "--verbose" => [some .verbose]
  | "--block-buffered" => [some .blockBuffered]
  | "--version" => [some .version]
  | word => if word.startsWith "--" || word == "-" then [none] else (word.toList.drop 1).map shortFlag?

/-- options as far as they are read, or a request for the version -/
inductive Flags where
  | options (o : Options)
  | version
deriving DecidableEq, Repr

/-- adds options to `o`; an unknown or repeated one is refused -/
def addFlags (o : Options) : List (Option Flag) → Option Flags
  | [] => some (.options o)
  | none :: _ => none
  | some .version :: _ => some .version
  | some .verbose :: rest => if o.verbose then none else addFlags { o with verbose := true } rest
  | some .blockBuffered :: rest => if o.blockBuffered then none else addFlags { o with blockBuffered := true } rest

def parseFrom (o : Options) : List String → Option Request
  | [] => none
  | word :: words =>
    if word.startsWith "-" then
      match addFlags o (flagsOf word) with
      | some (.options o) => parseFrom o words
      | some .version => some .version
      | none => none
    else .run o <$> program? word words

def parse (args : List String) : Option Request := parseFrom ⟨false, false⟩ args

structure Exit where
  /-- the status, from 0 to 255 -/
  code : Nat
  stdout : Bytes
  /-- what is reported besides -/
  report : String
deriving DecidableEq, Repr

/-- exit statuses keep the low eight bits -/
def statusCode (n : Int32) : Nat := (n.toInt % 256).toNat

def settings (o : Options) (s : Settings) : Settings :=
  { s with
    level := if o.verbose then .debug else s.level
    lineBuffered := if o.blockBuffered then false else s.lineBuffered }

def runProgram (fuel : Nat) (s : Settings) (program : Demo.Program) (stdin : Bytes) : Exit :=
  let context : Context Target := .fresh s [.data stdin] .memory .memory
  let run : Host (Context Target) Demo.Code Demo.Value (Except Failure (Option Int32)) := do
    (Demo.dialect fuel).runProgram (← program.entry)
  match run (Demo.newSession context) with
  | .ok (.ok status) s =>
    match s.world.shutdown status with
    | (.ok code, c) => ⟨statusCode code, c.stdout.delivered, ""⟩
    | (.error e, c) => ⟨1, c.stdout.delivered, "Error: " ++ e.message ++ "\n"⟩
  | .ok (.error e) s => ⟨1, s.world.stdout.delivered, "lrt-run: " ++ e.message ++ "\n"⟩
  | .error _ s => ⟨101, s.world.stdout.delivered, ""⟩

/-- the whole command: arguments, environment and input in, exit out -/
def run (fuel : Nat) (args : List String) (lookup : String → Option String) (stdin : Bytes) : Exit :=
  match parse args with
  | none => ⟨2, [], ""⟩
  | some .version => ⟨0, Text.encode "lrt-run 0.1.0\n", ""⟩
  | some (.run o program) =>
    match Settings.ofLookup lookup with
    | .error e => ⟨1, [], "Error: invalid runtime configuration\n\nCaused by:\n    " ++ e.message ++ "\n"⟩
    | .ok s => runProgram fuel (settings o s) program stdin

end ByNeed.Cli
