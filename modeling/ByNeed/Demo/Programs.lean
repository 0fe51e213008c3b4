/-
The demonstration programs.
-/
import ByNeed.Demo.Reading
import ByNeed.Text

namespace ByNeed.Demo

variable {σ μ : Type} [Device (σ × μ)]

inductive Program where
  | exit (code : Int32)
  | bool (b : Bool)
  | request (codes : List Int32)
  | primes (count : Nat)
  | fib (n : Nat)
  | ones (count : Nat)
  | echo
  /-- the result is one more than itself -/
  | diverge
deriving DecidableEq, Repr

def Program.entry {W : Type} : Program → Host W Code Value Ref
  | exit code => do yield (← Host.ready (.status code))
  | bool b => do yield (← Host.ready (.bool b))
  | request codes => perform (.request codes)
  | primes count => Host.delay fun _ => .primesEntry count
  | fib n => perform (.fib n)
  | ones count => perform (.ones count)
  | echo => perform .echo
  | diverge => do yield (← Host.delay .diverge)
where
  yield (r : Ref) : Host W Code Value Ref := Host.ready (.action (.pure r))
  perform (job : Job) : Host W Code Value Ref := Host.ready (.action (.primitive job))

def intText : Value → String
  | .int n => toString n.toInt
  | v => v.kind

def writeLine (s : String) : Host (Context σ μ) Code Value Unit := Host.io (Context.onStdout (Handle.writeLine s))

/-- prints numbered elements, one a line -/
def printNumbered (E : Engine Empty Code Value) : List Value → Host (Context σ μ) Code Value Unit
  | [] => return ()
  | v :: vs => do
    let entry ← Host.ready v
    let i ← Host.force E (← applyTo .index entry)
    let p ← Host.force E (← applyTo .element entry)
    writeLine (intText i ++ ": " ++ intText p)
    printNumbered E vs

/-- as many lines as a source can still give, and one -/
def lineBound : Source → Nat
  | [] => 1
  | .data bytes :: source => bytes.length + 1 + lineBound source
  | .failure _ :: source => 1 + lineBound source

/-- prints input lines, quoted, up to the end of input -/
def echoLines : (bound : Nat) → Host (Context σ μ) Code Value Unit
  | 0 => return ()
  | bound + 1 => do
    match ← Host.io Context.readLine with
    | none => return ()
    | some line =>
      writeLine (Text.quoteString line)
      echoLines bound

def Job.perform (E : Engine Empty Code Value) : Job → Host (Context σ μ) Code Value Ref
  | request codes => do
    Host.withWorld fun c => ((), codes.foldl (fun c code => c.request code) c)
    Host.ready .unit
  | primes count => do
    let numbers ← Host.delay fun _ => .upFrom 2
    let primes ← Host.delay fun _ => .sieve numbers
    printNumbered E (← take E count (← numbered primes))
    Host.ready .unit
  | fib n => do
    if Nat.pow 2 64 ≤ n + 1 then throw (.failed (.user "fib: index out of range"))
    let beginning ← take E (n + 1) (← Host.delay .fibs)
    match beginning.getLast? with
    | none => throw (.failed (.pattern "fib"))
    | some v =>
      writeLine ("fib " ++ toString n ++ " = " ++ intText v)
      Host.ready .unit
  | ones count => do
    let beginning ← take E count (← Host.delay .ones)
    writeLine ("[" ++ ",".intercalate (beginning.map intText) ++ "]")
    Host.ready .unit
  | echo => do
    echoLines (lineBound (← Host.world).stdin)
    Host.ready .unit

def dialect (fuel : Nat) : Dialect σ Code Value Job μ where
  engine := engine fuel
  perform := Job.perform (engine fuel)
  action?
    | .action a => some a
    | _ => none
  status
    | .status n => some n
    | .bool b => some (statusOfBool b)
    | _ => none

def newSession (c : Context σ μ) : Session (Context σ μ) Code Value := ⟨#[], [], c⟩

end ByNeed.Demo
