/-
Lazy lists and the code of their cells.

A list cell holds `nil` or a `cons` of two cells. Lists are built by code that makes one cell at a time: counting up,
dropping the head, filtering, zipping, sieving, and two lists that refer to themselves.
-/
import ByNeed.Program
import ByNeed.Fn
import ByNeed.Checked
import ByNeed.Dynamic

namespace ByNeed.Demo

inductive Prim where
  /-- adds, the left operand first -/
  | plus
  /-- whether the last bound number is no multiple of the first bound one -/
  | indivisible
  /-- a number and an element side by side -/
  | number
  /-- the number of a numbered element -/
  | index
  /-- the element of a numbered element -/
  | element
deriving DecidableEq, Repr

inductive Job where
  /-- asks for exit codes in turn -/
  | request (codes : List Int32)
  /-- prints the first primes, numbered from 1 -/
  | primes (count : Nat)
  /-- prints a Fibonacci number -/
  | fib (n : Nat)
  /-- prints the beginning of a circular list -/
  | ones (count : Nat)
  /-- prints every input line, quoted -/
  | echo
deriving DecidableEq, Repr

inductive Value where
  | unit
  | bool (b : Bool)
  | int (n : Int64)
  | status (n : Int32)
  | nil
  | cons (head tail : Ref)
  | numbered (index element : Ref)
  | action (a : Action Job)

inductive Code where
  | int (n : Int64)
  | failing (e : EvalError)
  | upFrom (n : Int64)
  | tail (xs : Ref)
  | filter (keep : Fn Prim) (xs : Ref)
  | zipWith (f : Fn Prim) (xs ys : Ref)
  | sieve (xs : Ref)
  | fibs (self : Ref)
  | ones (self : Ref)
  | enter (f : Prim) (delivered : List Ref)
  /-- demands every element of a list, cell by cell -/
  | normalizeSpine (v : Value)
  /-- a number that is one more than itself -/
  | diverge (self : Ref)
  /-- the entry of the primes program -/
  | primesEntry (count : Nat)

namespace Value

def kind : Value → String
  | unit => "unit"
  | bool _ => "bool"
  | int _ => "int"
  | status _ => "status"
  | nil | cons _ _ => "list"
  | numbered _ _ => "numbered"
  | action _ => "action"

/-- the cells that deep forcing visits -/
def parts : Value → List Ref
  | cons head tail => [head, tail]
  | numbered index element => [index, element]
  | _ => []

def tag : Value → Tag
  | cons _ _ => 1
  | _ => 0

end Value

abbrev Task := Comp Empty Code Value

namespace Task

def needInt : Value → Task Int64
  | .int n => pure n
  | v => .fail (.shape "int" v.kind)

def needBool : Value → Task Bool
  | .bool b => pure b
  | v => .fail (.shape "bool" v.kind)

/-- the remainder, which has no value for a divisor of zero or where the quotient does not fit -/
def remainder (n p : Int64) : Task Int64 :=
  if p = 0 then .abort "attempt to calculate the remainder with a divisor of zero"
  else
    match Checked.fit? (n.toInt.tdiv p.toInt) with
    | some _ => pure (Int64.ofInt (n.toInt.tmod p.toInt))
    | none => .abort "attempt to calculate the remainder with overflow"

/-- what a call does; arguments are delivered last first -/
def enter : Prim → List Ref → Task (Next Code Value)
  | .plus, [y, x] => do
    let a ← needInt (← .demand x)
    let b ← needInt (← .demand y)
    return .value (.int (← .ofOutcome (Checked.add a b)))
  | .indivisible, [n, p] => do
    let a ← needInt (← .demand n)
    let b ← needInt (← .demand p)
    return .value (.bool ((← remainder a b) != 0))
  | .number, [element, index] => return .value (.numbered index element)
  | .index, [r] => do
    match ← .demand r with
    | .numbered index _ => return .cell index
    | v => .fail (.shape "numbered" v.kind)
  | .element, [r] => do
    match ← .demand r with
    | .numbered _ element => return .cell element
    | v => .fail (.shape "numbered" v.kind)
  | _, _ => .fail (.pattern "call")

/-- the cell that a bound function comes to; an unsaturated one comes to none -/
def bindOne (f : Fn Prim) (a : Ref) : Task Ref :=
  match f.bindOne a with
  | .saturated code delivered => .newDelay (.enter code delivered)
  | .waiting _ => .fail (.pattern "call")

/-- no multiple of the number in this cell -/
def indivisibleBy (p : Ref) : Fn Prim := ⟨.indivisible, 2, [p]⟩

def plus : Fn Prim := .ofCode .plus 2

def number : Fn Prim := .ofCode .number 2

/-- counting up, one cell at a time; the cell after the last number cannot be built -/
def upFrom (n : Int64) : Task (Next Code Value) :=
  match Checked.fit? (n.toInt + 1) with
  | none => .abort "attempt to add with overflow"
  | some next => do
    let head ← .newReady (.int n)
    let tail ← .newDelay (.upFrom next)
    return .value (.cons head tail)

def tail (xs : Ref) : Task (Next Code Value) := do
  match ← .demand xs with
  | .cons _ tail => return .cell tail
  | _ => .fail (.pattern "tail")

/-- skips elements until one is kept -/
def filter (keep : Fn Prim) (xs : Ref) : Task (Next Code Value) := do
  match ← .demand xs with
  | .cons head tail =>
    if ← needBool (← .demand (← bindOne keep head)) then
      let rest ← .newDelay (.filter keep tail)
      return .value (.cons head rest)
    else return .code (.filter keep tail)
  | _ => return .value .nil

/-- demands both lists, the left one first, and stops with the shorter -/
def zipWith (f : Fn Prim) (xs ys : Ref) : Task (Next Code Value) := do
  let v ← .demand xs
  let w ← .demand ys
  match v, w with
  | .cons x xs, .cons y ys =>
    let head ← .newDelay (.enter f.code (f.applyAll [x, y]))
    let rest ← .newDelay (.zipWith f xs ys)
    return .value (.cons head rest)
  | _, _ => return .value .nil

/-- keeps the head and sieves what it does not divide -/
def sieve (xs : Ref) : Task (Next Code Value) := do
  match ← .demand xs with
  | .cons head tail =>
    let kept ← .newDelay (.filter (indivisibleBy head) tail)
    let rest ← .newDelay (.sieve kept)
    return .value (.cons head rest)
  | _ => return .value .nil

/-- 0, 1, and then the sums of the list with its own tail -/
def fibs (self : Ref) : Task (Next Code Value) := do
  let tail ← .newDelay (.tail self)
  let rest ← .newDelay (.zipWith plus self tail)
  let one ← .newReady (.int 1)
  let second ← .newReady (.cons one rest)
  let first ← .newReady (.int 0)
  return .value (.cons first second)

/-- 1, and then the list itself -/
def ones (self : Ref) : Task (Next Code Value) := do
  let one ← .newReady (.int 1)
  return .value (.cons one self)

/-- demands the head of a list and everything of it, then goes on with the tail -/
def normalizeSpine : Value → Task (Next Code Value)
  | .cons head tail => do
    let v ← .demand head
    let _ ← .deepen v
    let rest ← .demand tail
    return .code (.normalizeSpine rest)
  | v => return .value v

def diverge (self : Ref) : Task (Next Code Value) := do
  match ← .demand self with
  | .status n => return .value (.status (n + 1))
  | v => .fail (.shape "status" v.kind)

end Task

def Code.body : Code → Task (Next Code Value)
  | int n => return .value (.int n)
  | failing e => .fail e
  | upFrom n => Task.upFrom n
  | tail xs => Task.tail xs
  | filter keep xs => Task.filter keep xs
  | zipWith f xs ys => Task.zipWith f xs ys
  | sieve xs => Task.sieve xs
  | fibs self => Task.fibs self
  | ones self => Task.ones self
  | enter f delivered => Task.enter f delivered
  | normalizeSpine v => Task.normalizeSpine v
  | diverge self => Task.diverge self
  | primesEntry count => return .value (.action (.primitive (.primes count)))

def engine (fuel : Nat) : Engine Empty Code Value := ⟨Code.body, Value.parts, fuel⟩

end ByNeed.Demo
