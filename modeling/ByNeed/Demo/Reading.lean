/-
Building lists from a description, and reading them from outside.
-/
import ByNeed.Demo.Lists

namespace ByNeed.Demo

/-- a list element: a number or a failure, both delayed -/
inductive Elem where
  | int (n : Int64)
  | failing (e : EvalError)
deriving DecidableEq, Repr

def Elem.code : Elem → Code
  | int n => .int n
  | failing e => .failing e

inductive Blueprint where
  | literal (elems : List Elem)
  /-- the tail after the elements fails -/
  | broken (elems : List Elem) (e : EvalError)
  | upFrom (n : Int64)
  | tail (xs : Blueprint)
  /-- the elements that are no multiple of `p` -/
  | filter (p : Elem) (xs : Blueprint)
  /-- the sums of two lists -/
  | zip (xs ys : Blueprint)
  /-- the sums of a list with itself -/
  | zipSelf (xs : Blueprint)
  | sieve (xs : Blueprint)
  | fibs
  | ones
deriving Repr

variable {W : Type}

/-- ready cells for literal elements, before a given tail -/
def consAll (tail : Ref) : List Elem → Host W Code Value Ref
  | [] => pure tail
  | e :: es => do
    let head ← Host.delay fun _ => e.code
    let rest ← consAll tail es
    Host.ready (.cons head rest)

def Blueprint.build : Blueprint → Host W Code Value Ref
  | literal elems => do consAll (← Host.ready .nil) elems
  | broken elems e => do consAll (← Host.delay fun _ => .failing e) elems
  | upFrom n => Host.delay fun _ => .upFrom n
  | tail xs => do
    let xs ← xs.build
    Host.delay fun _ => .tail xs
  | filter p xs => do
    let p ← Host.delay fun _ => p.code
    let xs ← xs.build
    Host.delay fun _ => .filter (Task.indivisibleBy p) xs
  | zip xs ys => do
    let xs ← xs.build
    let ys ← ys.build
    Host.delay fun _ => .zipWith Task.plus xs ys
  | zipSelf xs => do
    let xs ← xs.build
    Host.delay fun _ => .zipWith Task.plus xs xs
  | sieve xs => do
    let xs ← xs.build
    Host.delay fun _ => .sieve xs
  | fibs => Host.delay .fibs
  | ones => Host.delay .ones

/-- the values of the first `n` elements, or of all there are, after those in `seen` (latest first) -/
def takeFrom (E : Engine Empty Code Value) (seen : List Value) : (n : Nat) → Ref → Host W Code Value (List Value)
  | 0, _ => return seen.reverse
  | n + 1, xs => do
    match ← Host.force E xs with
    | .cons head tail =>
      let v ← Host.force E head
      takeFrom E (v :: seen) n tail
    | _ => return seen.reverse

def take (E : Engine Empty Code Value) (n : Nat) (xs : Ref) : Host W Code Value (List Value) := takeFrom E [] n xs

/-- demands every element of a list, cell by cell -/
def normalizeList (E : Engine Empty Code Value) (xs : Ref) : Host W Code Value Value := do
  let v ← Host.force E xs
  let _ ← Host.whnf E (.normalizeSpine v)
  return v

/-- the elements of a list side by side with their numbers, from 1 on -/
def numbered (xs : Ref) : Host W Code Value Ref := do
  let numbers ← Host.delay fun _ => .upFrom 1
  Host.delay fun _ => .zipWith Task.number numbers xs

/-- the cell of a function applied to a value -/
def applyTo (f : Prim) (r : Ref) : Host W Code Value Ref := Host.delay fun _ => .enter f [r]

end ByNeed.Demo
