/-
Which cells are still held.

Cells are kept alive by the handles that lead to them: from outside (`roots`) and from the contents of other cells.
A cell whose last handle goes is released, and its own handles go with it. Cells that hold each other in a circle are
never released.
-/
import ByNeed.Expr.Value
import ByNeed.Heap

namespace ByNeed.Handles

def ofCell {O : Type} : Cell O Code Value → List Ref
  | .pending c => c.handles
  | .value v => v.handles
  | .busy _ | .failed _ => []

/-- one handle more to each of these cells -/
def retain (counts : Array Nat) (rs : List Ref) : Array Nat :=
  rs.foldl (fun counts r => counts.modify r (· + 1)) counts

/-- one handle less to each of these cells; those without any are added to the list -/
def release (counts : Array Nat) (gone : List Ref) : List Ref → Array Nat × List Ref
  | [] => (counts, gone)
  | r :: rs =>
    let counts := counts.modify r (· - 1)
    release counts (if counts[r]? = some 0 then r :: gone else gone) rs

/-- releases cell after cell; every cell is released at most once, so `fuel` is the number of cells -/
def sweep {O : Type} (heap : Heap O Code Value) : (fuel : Nat) → Array Nat → List Ref → Array Nat
  | 0, counts, _ => counts
  | _, counts, [] => counts
  | fuel + 1, counts, r :: gone =>
    let (counts, gone) := release counts gone ((heap[r]?.map ofCell).getD [])
    sweep heap fuel counts gone

/-- whether a cell is still held, by handles from outside or from cells that are held -/
def held {O : Type} (heap : Heap O Code Value) (roots : List Ref) (r : Ref) : Bool :=
  let counts := heap.foldl (fun counts cell => retain counts (ofCell cell)) (retain (Array.replicate heap.size 0) roots)
  let gone := (List.range heap.size).filter fun r => counts[r]? = some 0
  (sweep heap heap.size counts gone)[r]? != some 0

end ByNeed.Handles
