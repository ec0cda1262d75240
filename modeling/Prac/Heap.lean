import Prac.BinarySearch
import Prac.Lib.BinaryHeap

/-!
# The oblivious heap (`heap.hpp`, `heap.cpp`)

The heap on reconstructed values: every access acts on exactly its addressed cell, and the gadgets
compute their ideal functions.  An explicit access outside the memory is a failure.  Memories are those of up
to `2 ^ 31` cells in the source (its `int` shifts, see `restoreHeapPropertyOptimized`), and of up to `2 ^ 30`
where an oblivious access makes its own RDPF (`RDPF.maxKeyDepth`).

* `MinHeap.insert`, `MinHeap.insertOptimized` — insertion by bubbling up, and by binary search on the
  path from the root to the new leaf.
* `MinHeap.restoreHeapProperty`, `MinHeap.restoreHeapPropertyOptimized`,
  `MinHeap.restoreHeapPropertyAtExplicitIndex` — one exchange of a node with its smaller child; they
  differ in how the three cells are addressed.
* `MinHeap.extractMin` — both variants of the extraction.
-/

namespace Prac

open Loop BinaryHeap

/-- `MinHeap`: the words of its ORAM and the number of items. -/
structure MinHeap (oramSize : Nat) where
  oram : Words
  numItems : Nat

namespace MinHeap

variable {oramSize : Nat}

/-- `oram.flat(tio, yield)`. -/
abbrev flat (oramSize : Nat) : Shape oramSize := (Shape.whole oramSize).val

/-- `MinHeap::init(tio, yield)`. -/
def init : MinHeap oramSize where
  oram _ := maxint
  numItems := 0

/-! ## Insertion -/

/-- The loop body of `insert`. -/
def bubble (A : Shape oramSize) (childindex parentindex : Nat) (mem : Words) : Words :=
  let sharechild := A.get mem childindex
  let shareparent := A.get mem parentindex
  let diff := sharechild - shareparent
  let (lt, _, _) := signedCompare diff
  let (sharechild, shareparent) := oswap sharechild shareparent lt
  A.set (A.set mem childindex sharechild) parentindex shareparent

/-- `MinHeap::insert`. -/
def insert (h : MinHeap oramSize) (val : Value) : Option (MinHeap oramSize) :=
  let HeapArray := flat oramSize
  let numItems := h.numItems + 1
  if numItems < oramSize then
    let mem := HeapArray.set h.oram numItems val
    some { oram := climb (bubble HeapArray) numItems mem, numItems := numItems }
  else none

/-- `OblivIndex::unit_vector`: entry `j` of the unit vector of an index of `depth` bits. -/
def unitVector (foundidx : Value) (depth j : Nat) : Bool := decide (j = Index.pos ⟨foundidx, depth⟩)

/-- The running XOR `u` of the flags. -/
def runningXor (flag : Nat → Bool) : Nat → Bool
  | 0 => flag 0
  | j + 1 => flag (j + 1) ^^ runningXor flag j

/-- `MinHeap::insert_optimized`.  The constructor of the path asserts that its target is inside the
memory. -/
def insertOptimized (h : MinHeap oramSize) (val : Value) : Option (MinHeap oramSize) :=
  let HeapArray := flat oramSize
  let numItems := h.numItems + 1
  if numItems < oramSize then
    let P := Shape.path HeapArray numItems
    (P.binarySearch h.oram val).map fun foundidx =>
      let height := P.size
      let mem := HeapArray.set h.oram numItems 0
      let logheight := Nat.log2 height + 1
      let flag := unitVector foundidx logheight
      let u := runningXor flag
      let path j := P.get mem j
      let w j := if j > 0 then flagmult (u (j - 1)) (path (j - 1) - path j) else 0
      let v j := flagmult (flag j) (val - path j)
      { oram := forRange 0 height (fun j mem => P.set mem j (P.get mem j + (w j + v j))) mem
        numItems := numItems }
  else none

/-! ## Extraction -/

/-- The comparisons of a node with its children and the offsets that follow from them: `lt_c`, `gteq`,
`update_index_by` and `update_leftindex_by`. -/
def restoreOffsets (parent leftchild rightchild : Value) : Bool × Bool × Value × Value :=
  let (lt_c, eq_c, gt_c) := signedCompare (leftchild - rightchild)
  let smallerchild := select lt_c rightchild leftchild
  let (lt_p, _, _) := signedCompare (smallerchild - parent)
  let ltlt1 := lt_c && lt_p
  let update_leftindex_by := flagmult ltlt1 (parent - leftchild)
  let update_index_by := flagmult lt_p (smallerchild - parent)
  (lt_c, gt_c ^^ eq_c, update_index_by, update_leftindex_by)

/-- `MinHeap::restore_heap_property`. -/
def restoreHeapProperty (oramSize : Nat) (mem : Words) (index : Value) : Value × Words :=
  let HeapArray := flat oramSize
  let leftchildindex := index <<< 1
  let rightchildindex := leftchildindex ^^^ 1
  let parent := HeapArray.read mem (HeapArray.index index)
  let leftchild := HeapArray.read mem (HeapArray.index leftchildindex)
  let rightchild := HeapArray.read mem (HeapArray.index rightchildindex)
  let (lt_c, _, update_index_by, update_leftindex_by) := restoreOffsets parent leftchild rightchild
  let smallerindex := select lt_c rightchildindex leftchildindex
  let mem := HeapArray.add mem (HeapArray.index index) update_index_by
  let mem := HeapArray.add mem (HeapArray.index leftchildindex) update_leftindex_by
  let mem := HeapArray.add mem (HeapArray.index rightchildindex)
    (-(update_index_by + update_leftindex_by))
  (smallerindex, mem)

/-- `MinHeap::restore_heap_property_optimized`: the three cells are reached through one index of the
layer.  `1<<layer` and `2<<layer` are shifts of an `int`: they are these numbers in a memory of up to
`2 ^ 31` cells, where `layer` stays below 30. -/
def restoreHeapPropertyOptimized (oramSize : Nat) (mem : Words) (index : Value) (layer : Nat)
    (oidx : Index) : (Value × Bool) × Words :=
  let HeapArray := flat oramSize
  let leftchildindex := index <<< 1
  let rightchildindex := leftchildindex ^^^ 1
  let P := Shape.subflat HeapArray (1 <<< layer) (1 <<< layer)
  let C := Shape.subflat HeapArray (2 <<< layer) (2 <<< layer)
  let L := Shape.stride C 0 2
  let R := Shape.stride C 1 2
  let parent := P.read mem oidx
  let leftchild := L.read mem oidx
  let rightchild := R.read mem oidx
  let (lt_c, gteq, update_index_by, update_leftindex_by) :=
    restoreOffsets parent leftchild rightchild
  let smallerindex := select lt_c rightchildindex leftchildindex
  let mem := P.add mem oidx update_index_by
  let mem := L.add mem oidx update_leftindex_by
  let mem := R.add mem oidx (-(update_leftindex_by + update_index_by))
  ((smallerindex, gteq), mem)

/-- `MinHeap::restore_heap_property_at_explicit_index`. -/
def restoreHeapPropertyAtExplicitIndex (oramSize : Nat) (mem : Words) (index : Nat) :
    (Value × Bool) × Words :=
  let HeapArray := flat oramSize
  let parent := HeapArray.get mem index
  let leftchild := HeapArray.get mem (2 * index)
  let rightchild := HeapArray.get mem (2 * index + 1)
  let (lt, gteq, update_index_by, update_leftindex_by) := restoreOffsets parent leftchild rightchild
  let leftchildindex := 2 * index
  let rightchildindex := 2 * index + 1
  let smallerindex := (if lt then BitVec.ofNat 64 leftchildindex else 0) ^^^
    (if gteq then BitVec.ofNat 64 rightchildindex else 0)
  let mem := HeapArray.set mem index (HeapArray.get mem index + update_index_by)
  let mem := HeapArray.set mem leftchildindex
    (HeapArray.get mem leftchildindex + update_leftindex_by)
  let mem := HeapArray.set mem rightchildindex
    (HeapArray.get mem rightchildindex + -(update_index_by + update_leftindex_by))
  ((smallerindex, gteq), mem)

/-- The loop body of the optimized extraction. -/
def extractStepOptimized (oramSize : Nat) (i : Nat) (s : Value × Index × Words) :
    Value × Index × Words :=
  let (smaller, oidx, mem) := s
  let (out, mem) := restoreHeapPropertyOptimized oramSize mem smaller (i + 1) oidx
  (out.1, oidx.incr out.2, mem)

/-- The loop body of the basic extraction. -/
def extractStep (oramSize : Nat) (s : Value × Words) : Value × Words :=
  let (smaller, mem) := s
  restoreHeapProperty oramSize mem smaller

/-- `MinHeap::extract_min`, which "cannot be called on an empty heap".  `std::log2` is taken as the
exact logarithm. -/
def extractMin (h : MinHeap oramSize) (isOptimized : Int) : Option (Value × MinHeap oramSize) :=
  let HeapArray := flat oramSize
  let height := Nat.log2 h.numItems
  if h.numItems = 0 ∨ oramSize ≤ h.numItems then none
  else
    let minval := HeapArray.get h.oram 1
    let mem := HeapArray.set h.oram 1 (HeapArray.get h.oram h.numItems)
    let mem := HeapArray.set mem h.numItems maxint
    let numItems := h.numItems - 1
    if numItems = 0 then some (minval, ⟨mem, numItems⟩)
    else if oramSize ≤ 3 then none
    else
      let (outroot, mem) := restoreHeapPropertyAtExplicitIndex oramSize mem 1
      let smaller := outroot.1
      let mem :=
        if isOptimized > 0 then
          (forRange 0 (height - 1) (extractStepOptimized oramSize)
            (smaller, Index.empty.incr outroot.2, mem)).2.2
        else mem
      let mem :=
        if isOptimized = 0 then
          (forRange 0 (height - 1) (fun _ => extractStep oramSize) (smaller, mem)).2
        else mem
      some (minval, ⟨mem, numItems⟩)

/-! ## Runs -/

/-- One operation on the heap. -/
inductive Op where
  | insert (val : Value)
  | insertOptimized (val : Value)
  | extractMin (isOptimized : Bool)

/-- One operation, with the value that an extraction returns. -/
def step (h : MinHeap oramSize) : Op → Option (MinHeap oramSize × Option Value)
  | .insert val => (h.insert val).map fun h => (h, none)
  | .insertOptimized val => (h.insertOptimized val).map fun h => (h, none)
  | .extractMin isOptimized =>
    (h.extractMin (if isOptimized then 1 else 0)).map fun (minval, h) => (h, some minval)

/-- A sequence of operations, with the values returned. -/
def run (h : MinHeap oramSize) : List Op → Option (MinHeap oramSize × List (Option Value))
  | [] => some (h, [])
  | op :: ops => do
    let (h, out) ← h.step op
    let (h, outs) ← h.run ops
    return (h, out :: outs)

end MinHeap

end Prac
