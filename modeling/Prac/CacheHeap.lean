import Prac.HeapExtract

/-!
# The cached extraction (`heap.cpp`)

The experimental branch of the driver: the tree heap stays as it is, and a second heap, the cache,
holds the indices of the tree nodes whose parents have been extracted.

* `MinHeap.initN`, `MinHeap.insertvalM` — the tree heap and its boolean counterpart are set up.
* `MinHeap.restoreHeapPropertyCache`, `MinHeap.heapifyCache` — exchanges in the cache; the indices are
  compared by the tree's values, which are read obliviously.
* `FastHeap.extract` — one round of the driver's loop, `FastHeap.run` the loop.

As in `MinHeap`, an explicit access outside the memory is a failure.
-/

namespace Prac

open Loop BinaryHeap

namespace MinHeap

variable {oramSize : Nat}

/-- `MinHeap::init(tio, yield, n)`. -/
def initN (n : Nat) : MinHeap oramSize where
  oram i := if 1 ≤ i ∧ i ≤ n then BitVec.ofNat 64 (i * 100) else maxint
  numItems := n

/-- `MinHeap::_initforbool`. -/
def initforbool (n : Nat) : MinHeap oramSize where
  oram i := if 1 ≤ i ∧ i ≤ n then 1 else maxint
  numItems := n

/-! ## Insertion into the tree -/

/-- `MinHeap::_convert_bool_new`, which is given the number of items of the tree. -/
def convertBoolNew (numItems : Nat) (obj : MinHeap oramSize) : MinHeap oramSize :=
  ⟨(flat oramSize).set obj.oram numItems 1, obj.numItems + 1⟩

/-- The loop body of `_insertval_m`. -/
def bubbleM (A : Shape oramSize) (boolean : Words) (childindex parentindex : Nat) (mem : Words) :
    Words :=
  let sharechild := A.get mem childindex
  let shareparent := A.get mem parentindex
  let sharebooleanparent := A.get boolean parentindex
  let diff := sharechild - shareparent
  let booleandiff := sharebooleanparent - 1
  let (lt, _, _) := signedCompare diff
  let (_, eq1, _) := signedCompare booleandiff
  let lt := lt && eq1
  let (sharechild, shareparent) := oswap sharechild shareparent lt
  A.set (A.set mem childindex sharechild) parentindex shareparent

/-- `MinHeap::_insertval_m`.  `obj` is the boolean heap; the cache is not used. -/
def insertvalM (h obj : MinHeap oramSize) (val : Value) :
    Option (MinHeap oramSize × MinHeap oramSize) :=
  let HeapArray := flat oramSize
  let numItems := h.numItems + 1
  if numItems < oramSize then
    let mem := HeapArray.set h.oram numItems val
    let obj := convertBoolNew numItems obj
    some (⟨climb (bubbleM HeapArray obj.oram) numItems mem, numItems⟩, obj)
  else none

/-! ## The cache -/

/-- The loop body of `_restore_heap_property_cache`. -/
def bubbleCache (A : Shape oramSize) (tree : Words) (childindex parentindex : Nat) (mem : Words) :
    Words :=
  let sharechild_ind := A.get mem childindex
  let shareparent_ind := A.get mem parentindex
  let sharechild := A.read tree (A.index sharechild_ind)
  let shareparent := A.read tree (A.index shareparent_ind)
  let diff := sharechild - shareparent
  let (lt, _, _) := signedCompare diff
  let (sharechild_ind, shareparent_ind) := oswap sharechild_ind shareparent_ind lt
  A.set (A.set mem childindex sharechild_ind) parentindex shareparent_ind

/-- `MinHeap::_restore_heap_property_cache`. -/
def restoreHeapPropertyCache (oramSize : Nat) (tree : Words) (index : Nat) (mem : Words) : Words :=
  climb (bubbleCache (flat oramSize) tree) index mem

/-- `MinHeap::_heapify_cache`. -/
def heapifyCache (h : MinHeap oramSize) (obj : MinHeap oramSize) : MinHeap oramSize :=
  let n := h.numItems
  { h with oram := forRange (n / 2 + 1) (n + 1) (restoreHeapPropertyCache oramSize obj.oram) h.oram }

/-- `MinHeap::_insertval_c`. -/
def insertvalC (h : MinHeap oramSize) (val : Value) (obj : MinHeap oramSize) :
    Option (MinHeap oramSize) :=
  let numItems := h.numItems + 1
  if numItems < oramSize then
    let mem := (flat oramSize).set h.oram numItems val
    if numItems = 1 then some ⟨mem, numItems⟩
    else some ⟨restoreHeapPropertyCache oramSize obj.oram numItems mem, numItems⟩
  else none

/-- `MinHeap::_insertclr`. -/
def insertclr (h : MinHeap oramSize) (index : Value) (obj : MinHeap oramSize) :
    Option (MinHeap oramSize) :=
  let left_child := index <<< 1
  let right_child := left_child + 1
  (h.insertvalC left_child obj).bind fun h => h.insertvalC right_child obj

/-- `MinHeap::_extract_root`. -/
def extractRoot (h : MinHeap oramSize) : Option Value :=
  if 1 < oramSize then some ((flat oramSize).get h.oram 1) else none

/-- `MinHeap::_extract_value`. -/
def extractValue (index : Value) (obj : MinHeap oramSize) : Value :=
  (flat oramSize).read obj.oram ((flat oramSize).index index)

/-- `MinHeap::_convert_bool` at an explicit index. -/
def convertBool (h : MinHeap oramSize) (index : Nat) : Option (MinHeap oramSize) :=
  if index < oramSize then some { h with oram := (flat oramSize).set h.oram index 0 } else none

/-- `MinHeap::_convert_bool` at a shared index: the assignment reads the old value and adds the
difference. -/
def convertBoolShared (h : MinHeap oramSize) (index : Value) : MinHeap oramSize :=
  let HeapArray := flat oramSize
  let oldval := HeapArray.read h.oram (HeapArray.index index)
  { h with oram := HeapArray.add h.oram (HeapArray.index index) (0 - oldval) }

/-- `MinHeap::_numitems`. -/
def numitems (h : MinHeap oramSize) (num : Nat) : Bool := decide (h.numItems > num)

/-- `MinHeap::_extract_min_cache`. -/
def extractMinCache (h : MinHeap oramSize) : Option (Value × MinHeap oramSize) :=
  let HeapArray := flat oramSize
  if h.numItems = 0 ∨ oramSize ≤ h.numItems then none
  else
    let minval := HeapArray.get h.oram 1
    let mem := HeapArray.set h.oram 1 (HeapArray.get h.oram h.numItems)
    let mem := HeapArray.set mem h.numItems maxint
    some (minval, ⟨mem, h.numItems - 1⟩)

end MinHeap

/-! ## The driver -/

/-- The three heaps of the experimental branch. -/
structure FastHeap (oramSize : Nat) where
  tree : MinHeap oramSize
  treeboolean : MinHeap oramSize
  cache : MinHeap oramSize

namespace FastHeap

variable {oramSize : Nat}

/-- The three heaps at first. -/
def init (n : Nat) : FastHeap oramSize := ⟨.initN n, .initforbool n, .init⟩

/-- One round of the insertion loop. -/
def insertval (s : FastHeap oramSize) (val : Value) : Option (FastHeap oramSize) :=
  (s.tree.insertvalM s.treeboolean val).map fun (tree, treeboolean) => { s with tree, treeboolean }

/-- The insertion loop. -/
def insertvals (s : FastHeap oramSize) (vals : List Value) : Option (FastHeap oramSize) :=
  vals.foldlM insertval s

/-- The round of the extraction loop that finds the cache empty. -/
def extractTree (s : FastHeap oramSize) : Option (FastHeap oramSize × Value) := do
  let minval ← s.tree.extractRoot
  let treeboolean ← s.treeboolean.convertBool 1
  let cache ← if s.tree.numitems 3 then s.cache.insertvalC 3 s.tree else some s.cache
  let cache ← if s.tree.numitems 2 then cache.insertvalC 2 s.tree else some cache
  return ({ s with treeboolean, cache }, minval)

/-- The other rounds. -/
def extractCache (s : FastHeap oramSize) : Option (FastHeap oramSize × Value) := do
  let to_extract_index ← s.cache.extractRoot
  let (_, cache) ← s.cache.extractMinCache
  let minval := MinHeap.extractValue to_extract_index s.tree
  let treeboolean := s.treeboolean.convertBoolShared to_extract_index
  let cache := cache.heapifyCache s.tree
  let cache ← cache.insertclr to_extract_index s.tree
  return ({ s with treeboolean, cache }, minval)

/-- One round of the extraction loop. -/
def extract (s : FastHeap oramSize) : Option (FastHeap oramSize × Value) :=
  if s.cache.numitems 0 = false then s.extractTree else s.extractCache

/-- The extraction loop, with the values pushed to `extracted`. -/
def run (s : FastHeap oramSize) (n_extracts : Nat) : Option (FastHeap oramSize × List Value) :=
  forRangeOpt 0 n_extracts (fun _ (s, extracted) =>
    s.extract.map fun (s, minval) => (s, extracted ++ [minval])) (s, [])

end FastHeap

end Prac
