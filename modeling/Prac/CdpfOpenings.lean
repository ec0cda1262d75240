import Prac.BstUnlink
import Prac.CacheHeap
import Prac.Lib.OneTime

/-!
# What the CDPFs of BST and heap operations open

The operations once more, with the CDPFs that they take from `tio.cdpf()` and the differences that
`compare` and `is_zero` open.

* `Tio`, `Opening` — a computation with its ledger of openings.
* `BST.insertTio`, `BST.lookupTio`, `BST.delTio`, `MinHeap.insertTio` and the others — the operations.
* `BST.insertTio_fst` and the others — apart from the ledger they compute what the operations compute.
-/

namespace Prac

open OneTime Loop BinaryHeap

/-- The value whose difference from the target is opened: additively by `compare`, and by XOR by
`is_zero` of a pointer. -/
structure Opening where
  xor : Bool
  x : Value
  deriving DecidableEq

/-- `S = target - x`, which both players learn. -/
def Opening.difference (target : Value) (o : Opening) : Value :=
  if o.xor then target ^^^ o.x else target - o.x

/-- A computation that takes CDPFs and opens differences. -/
abbrev Tio (α : Type) := Taking Opening α

namespace Tio

/-- `tio.cdpf(yield)`. -/
def cdpf : Tio Nat := take

/-- `CDPF::compare`. -/
def compare (cdpf : Nat) (x : Value) : Tio (Bool × Bool × Bool) :=
  (fun _ => signedCompare x) <$> use cdpf ⟨false, x⟩

/-- `CDPF::is_zero` of XOR shares. -/
def isZero (cdpf : Nat) (x : Value) : Tio Bool := (fun _ => decide (x = 0)) <$> use cdpf ⟨true, x⟩

@[simp] theorem compare_fst (cdpf : Nat) (x : Value) (s : Ledger Opening) :
    (compare cdpf x s).1 = signedCompare x := rfl

@[simp] theorem isZero_fst (cdpf : Nat) (x : Value) (s : Ledger Opening) :
    (isZero cdpf x s).1 = decide (x = 0) := rfl

@[simp] theorem bind_fst {α β : Type} (m : Tio α) (f : α → Tio β) (s : Ledger Opening) :
    ((m >>= f) s).1 = (f (m s).1 (m s).2).1 := rfl

@[simp] theorem pure_fst {α : Type} (a : α) (s : Ledger Opening) : ((pure a : Tio α) s).1 = a := rfl

@[simp] theorem map_fst {α β : Type} (f : α → β) (m : Tio α) (s : Ledger Opening) :
    ((f <$> m) s).1 = f (m s).1 := rfl

/-- The next computation, unless there was a failure. -/
def andThen {α β : Type} (m : Tio (Option α)) (f : α → Tio (Option β)) : Tio (Option β) :=
  m >>= fun o => o.elim (pure none) f

theorem andThen_fst {α β : Type} (m : Tio (Option α)) {f : α → Tio (Option β)} {f' : α → Option β}
    (hf : ∀ a s, (f a s).1 = f' a) (s : Ledger Opening) :
    (andThen m f s).1 = (m s).1.bind f' := by
  rw [andThen, bind_fst]
  cases (m s).1 with
  | none => rfl
  | some a => exact hf a _

theorem andThen_pure_fst {α β : Type} (m : Tio (Option α)) (g : α → β) (s : Ledger Opening) :
    (andThen m (fun a => pure (some (g a))) s).1 = (m s).1.bind fun a => some (g a) :=
  @andThen_fst _ _ m _ (fun a => some (g a)) (fun _ _ => rfl) s

/-- `while (parent > 0) { body(child, parent); child = parent; parent /= 2; }`. -/
def climb {σ : Type} (body : Nat → Nat → σ → Tio σ) (child : Nat) (s : σ) : Tio σ :=
  if 0 < child / 2 then body child (child / 2) s >>= climb body (child / 2) else pure s
termination_by child
decreasing_by omega

theorem climb_fst {σ : Type} {body : Nat → Nat → σ → Tio σ} {body' : Nat → Nat → σ → σ}
    (h : ∀ c p s ledger, (body c p s ledger).1 = body' c p s) (child : Nat) : ∀ s ledger,
      (climb body child s ledger).1 = BinaryHeap.climb body' child s := by
  induction child using Nat.strong_induction_on with
  | _ child ih =>
      intro s ledger
      rw [climb, BinaryHeap.climb]
      split
      · rename_i hpos
        rw [bind_fst, h]
        exact ih (child / 2) (by omega) _ _
      · rfl

end Tio

open Tio

/-! ## The binary search tree -/

namespace BST

variable {oramSize : Nat}

/-- `compare_keys`. -/
def compareKeysTio (k1 k2 : Value) : Tio (Bool × Bool) := do
  let cdpf ← cdpf
  let (lt, eq, gt) ← compare cdpf (k2 - k1)
  return (lt ^^ eq, gt)

/-- The recursive `insert`: one CDPF for the keys and one for the pointer, at each level. -/
def insertRecTio (oramSize : Nat) (mem : Nodes) (insertion_key : Value) :
    (TTL : Nat) → (ptr : Value) → (isDummy : Bool) → Tio (Value × Bool)
  | 0, ptr, _ => pure (ptr, false)
  | TTL + 1, ptr, isDummy => do
    let A := flat oramSize
    let isNotDummy := !isDummy
    let cnode := mem.read A (A.index ptr)
    let (_, gt) ← compareKeysTio cnode.key insertion_key
    let left := extractLeftPtr cnode.pointers
    let right := extractRightPtr cnode.pointers
    let next_ptr := selectBits 32 gt left right
    let dpf ← cdpf
    let F_z ← isZero dpf next_ptr
    let F_i := isNotDummy && F_z
    let isDummy := isDummy ^^ F_i
    let (wptr, direction) ← insertRecTio oramSize mem insertion_key TTL next_ptr isDummy
    let ret_ptr := select F_i wptr ptr
    let ret_direction := (F_i && (direction ^^ gt)) ^^ direction
    return (ret_ptr, ret_direction)

theorem insertRecTio_fst (mem : Nodes) (key : Value) (TTL : Nat) :
    ∀ (ptr : Value) (isDummy : Bool) (s : Ledger Opening),
      (insertRecTio oramSize mem key TTL ptr isDummy s).1 = insertRec oramSize mem key TTL ptr isDummy := by
  induction TTL with
  | zero => intro ptr isDummy s; rfl
  | succ TTL ih =>
      intro ptr isDummy s
      rw [insertRecTio, insertRec]
      simp only [bind_fst, pure_fst, isZero_fst, ih]
      rfl

/-- The end of `insert`. -/
def linkTio (b : BST oramSize) (TTL : Nat) (insert_address key : Value) : Tio (BST oramSize) := do
  let A := flat oramSize
  let (wptr, direction) ← insertRecTio oramSize b.oram key TTL b.root false
  let pointers := (b.oram.read A (A.index wptr)).pointers
  let left_ptr := extractLeftPtr pointers
  let right_ptr := extractRightPtr pointers
  let new_right_ptr := select direction right_ptr insert_address
  let new_left_ptr := select (!direction) left_ptr insert_address
  let pointers := setLeftPtr pointers new_left_ptr
  let pointers := setRightPtr pointers new_right_ptr
  return { b with oram := b.oram.writePointers A (A.index wptr) pointers }

theorem linkTio_fst (b : BST oramSize) (TTL : Nat) (insert_address key : Value) (s : Ledger Opening) :
    (b.linkTio TTL insert_address key s).1 = b.link TTL insert_address key := by
  rw [linkTio, link]
  simp only [bind_fst, pure_fst, insertRecTio_fst]

/-- `BST::insert`. -/
def insertTio (b : BST oramSize) (node : Node) : Tio (Option (BST oramSize)) :=
  let A := flat oramSize
  if b.numItems = 0 then
    if 1 < oramSize then
      pure (some { b with oram := b.oram.set A 1 node, root := 1, numItems := 1 })
    else pure none
  else
    let TTL := b.numItems
    let numItems := b.numItems + 1
    match b.emptyLocations with
    | insert_address :: emptyLocations =>
      let oram := b.oram.write A (A.index insert_address) node
      some <$> linkTio { b with oram, numItems, emptyLocations } TTL insert_address node.key
    | [] =>
      let new_id := 1 + numItems
      if new_id < oramSize then
        let oram := b.oram.set A new_id node
        some <$> linkTio { b with oram, numItems } TTL (BitVec.ofNat 64 new_id) node.key
      else pure none

theorem insertTio_fst (b : BST oramSize) (node : Node) (s : Ledger Opening) :
    (b.insertTio node s).1 = b.insert node := by
  unfold insertTio insert
  dsimp only
  split
  · split <;> rfl
  · cases b.emptyLocations with
    | cons insert_address emptyLocations =>
        dsimp only
        rw [map_fst, linkTio_fst]
    | nil =>
        dsimp only
        split
        · rw [map_fst, linkTio_fst]
        · rfl

/-- The recursive `lookup`. -/
def lookupRecTio (oramSize : Nat) (mem : Nodes) (key : Value) :
    (TTL : Nat) → (ptr : Value) → (isDummy : Bool) → (ret_node : Node) → Tio (Bool × Node)
  | 0, _, isDummy, ret_node => pure (isDummy, ret_node)
  | TTL + 1, ptr, isDummy, ret_node => do
    let A := flat oramSize
    let cnode := mem.read A (A.index ptr)
    let cdpf ← cdpf
    let (_, eq, gt) ← compare cdpf (key - cnode.key)
    let left := extractLeftPtr cnode.pointers
    let right := extractRightPtr cnode.pointers
    let next_ptr := selectBits 32 gt left right
    let ret_node := { ret_node with
      key := select eq ret_node.key cnode.key
      value := select eq ret_node.value cnode.value }
    lookupRecTio oramSize mem key TTL next_ptr (isDummy || eq) ret_node

theorem lookupRecTio_fst (mem : Nodes) (key : Value) (TTL : Nat) :
    ∀ (ptr : Value) (isDummy : Bool) (ret_node : Node) (s : Ledger Opening),
      (lookupRecTio oramSize mem key TTL ptr isDummy ret_node s).1 =
        lookupRec oramSize mem key TTL ptr isDummy ret_node := by
  induction TTL with
  | zero => intro ptr isDummy ret_node s; rfl
  | succ TTL ih =>
      intro ptr isDummy ret_node s
      rw [lookupRecTio, lookupRec]
      simp only [bind_fst, compare_fst, ih]

/-- `BST::lookup`. -/
def lookupTio (b : BST oramSize) (key : Value) (ret_node : Node) : Tio (Bool × Node) :=
  lookupRecTio oramSize b.oram key b.numItems b.root false ret_node

theorem lookupTio_fst (b : BST oramSize) (key : Value) (ret_node : Node) (s : Ledger Opening) :
    (b.lookupTio key ret_node s).1 = b.lookup key ret_node :=
  lookupRecTio_fst _ _ _ _ _ _ _

/-- The way back of one level of the recursive `del`. -/
def delBack (oramSize : Nat) (ptr pointers : Value) (flags : DelFlags) (lf af : Bool) :
    Bool × Nodes × DelReturn → Bool × Nodes × DelReturn
  | (false, mem, ret) => (false, mem, ret)
  | (true, mem, ret) =>
    (true, relink oramSize mem ptr pointers flags.dir ret, delReturn flags lf af ptr ret)

/-- The recursive `del`: one CDPF for both pointers and the key, at each level. -/
def delRecTio (oramSize : Nat) (del_key : Value) : (TTL : Nat) → (ptr : Value) → (af fs : Bool) →
    Nodes × DelReturn → Tio (Bool × Nodes × DelReturn)
  | 0, _, af, _, (mem, ret) => pure (af, mem, { ret with F_r := !ret.F_r })
  | TTL + 1, ptr, af, fs, (mem, ret) => do
    let A := flat oramSize
    let node := mem.read A (A.index ptr)
    let left := extractLeftPtr node.pointers
    let right := extractRightPtr node.pointers
    let cdpf ← cdpf
    let l0 ← isZero cdpf left
    let r0 ← isZero cdpf right
    let (_, eq, gt) ← compare cdpf (del_key - node.key)
    let flags := delFlags l0 r0 eq gt fs
    let next_ptr := selectBits 32 flags.dir left right
    delBack oramSize ptr node.pointers flags eq af <$>
      delRecTio oramSize del_key TTL next_ptr (af || eq) ((fs || flags.c2) ^^ flags.c4) (mem, ret)

theorem delRecTio_fst (key : Value) (TTL : Nat) :
    ∀ (ptr : Value) (af fs : Bool) (mem : Nodes) (ret : DelReturn) (s : Ledger Opening),
      (delRecTio oramSize key TTL ptr af fs (mem, ret) s).1 =
        delRec oramSize key TTL ptr af fs (mem, ret) := by
  induction TTL with
  | zero => intro ptr af fs mem ret s; rfl
  | succ TTL ih =>
      intro ptr af fs mem ret s
      rw [delRecTio, delRec_succ]
      simp only [bind_fst, isZero_fst, compare_fst, map_fst, ih]
      rfl

/-- The end of `del`, after the recursion. -/
def delEnd (b : BST oramSize) : Bool × Nodes × DelReturn → Bool × BST oramSize
  | (false, mem, _) => (false, { b with oram := mem })
  | (true, mem, ret) =>
    let A := flat oramSize
    let del_node := mem.read A (A.index ret.N_d)
    let suc_node := mem.read A (A.index ret.N_s)
    let root := select ret.F_r b.root ret.ret_ptr
    let key := select ret.F_ss del_node.key suc_node.key
    let value := select ret.F_ss del_node.value suc_node.value
    let empty_loc := select ret.F_ss ret.N_d ret.N_s
    let mem := mem.writeKey A (A.index ret.N_d) key
    let mem := mem.writeValue A (A.index ret.N_d) value
    let mem := mem.writeKey A (A.index ret.N_s) 0
    let mem := mem.writeValue A (A.index ret.N_s) 0
    (true, { oram := mem, root := root, numItems := b.numItems - 1,
             emptyLocations := empty_loc :: b.emptyLocations })

/-- `BST::del`. -/
def delTio (b : BST oramSize) (del_key : Value) : Tio (Bool × BST oramSize) :=
  let A := flat oramSize
  if b.numItems = 0 then pure (false, b)
  else if b.numItems = 1 then
    pure (true, { b with
      oram := b.oram.write A (A.index b.root) 0
      numItems := 0
      emptyLocations := b.root :: b.emptyLocations })
  else
    b.delEnd <$> delRecTio oramSize del_key b.numItems b.root false false (b.oram, .init)

theorem delTio_fst (b : BST oramSize) (key : Value) (s : Ledger Opening) :
    (b.delTio key s).1 = b.del key := by
  unfold delTio del
  dsimp only
  split
  · rfl
  · split
    · rfl
    · rw [map_fst, delRecTio_fst]
      rfl

end BST

/-! ## The heap -/

namespace Shape

variable {oramSize : Nat}

/-- The search loop of `binary_search`. -/
def searchLoopTio (P : Shape oramSize) (mem : Words) (target : Value) : Nat → Index → Tio Index
  | 0, oidx => pure oidx
  | depth + 1, oidx => do
    let S := Shape.stride P (1 <<< depth - 1) (1 <<< (depth + 1))
    let val := S.read mem oidx
    let cdpf ← cdpf
    let (lt, _, _) ← compare cdpf (val - target)
    searchLoopTio P mem target depth (oidx.incr lt)

theorem searchLoopTio_fst (P : Shape oramSize) (mem : Words) (target : Value) (depth : Nat) :
    ∀ oidx s, (searchLoopTio P mem target depth oidx s).1 = searchLoop P mem target depth oidx := by
  induction depth with
  | zero => intro oidx s; rfl
  | succ depth ih =>
      intro oidx s
      rw [searchLoopTio, searchLoop]
      simp only [bind_fst, compare_fst, ih]

/-- `Shape::binary_search`. -/
def binarySearchTio (A : Shape oramSize) (mem : Words) (target : Value) : Tio (Option Value) :=
  if A.size = 0 then pure (some 0)
  else
    let (padsize, depth) := padLoop A.size 1 0
    if depth > 31 then pure none
    else do
      let P := Shape.pad A padsize maxint
      let mid := 1 <<< (depth - 1) - 1
      let val := P.get mem mid
      let cdpf ← cdpf
      let (lt, _, _) ← compare cdpf (val - target)
      if depth = 1 then return some (BitVec.ofNat 64 lt.toNat)
      else (fun oidx => some oidx.idx) <$>
        searchLoopTio P mem target (depth - 1) (Index.empty.incr lt)

theorem binarySearchTio_fst (A : Shape oramSize) (mem : Words) (target : Value) (s : Ledger Opening) :
    (A.binarySearchTio mem target s).1 = A.binarySearch mem target := by
  unfold binarySearchTio binarySearch
  split
  · rfl
  · dsimp only
    split
    · rfl
    · simp only [bind_fst, compare_fst]
      split
      · rfl
      · rw [map_fst, searchLoopTio_fst]

end Shape

namespace MinHeap

variable {oramSize : Nat}

/-- The loop body of `insert`. -/
def bubbleTio (A : Shape oramSize) (childindex parentindex : Nat) (mem : Words) : Tio Words := do
  let sharechild := A.get mem childindex
  let shareparent := A.get mem parentindex
  let cdpf ← cdpf
  let diff := sharechild - shareparent
  let (lt, _, _) ← compare cdpf diff
  let (sharechild, shareparent) := oswap sharechild shareparent lt
  return A.set (A.set mem childindex sharechild) parentindex shareparent

/-- `MinHeap::insert`. -/
def insertTio (h : MinHeap oramSize) (val : Value) : Tio (Option (MinHeap oramSize)) :=
  let HeapArray := flat oramSize
  let numItems := h.numItems + 1
  if numItems < oramSize then
    let mem := HeapArray.set h.oram numItems val
    (fun oram => some { oram, numItems }) <$> Tio.climb (bubbleTio HeapArray) numItems mem
  else pure none

theorem insertTio_fst (h : MinHeap oramSize) (val : Value) (s : Ledger Opening) :
    (h.insertTio val s).1 = h.insert val := by
  unfold insertTio insert
  dsimp only
  split
  · rw [map_fst, @Tio.climb_fst _ _ (bubble (flat oramSize)) fun _ _ _ _ => rfl]
  · rfl

/-- `MinHeap::insert_optimized`. -/
def insertOptimizedTio (h : MinHeap oramSize) (val : Value) : Tio (Option (MinHeap oramSize)) :=
  let HeapArray := flat oramSize
  let numItems := h.numItems + 1
  if numItems < oramSize then
    let P := Shape.path HeapArray numItems
    (Option.map fun foundidx =>
      let height := P.size
      let mem := HeapArray.set h.oram numItems 0
      let logheight := Nat.log2 height + 1
      let flag := unitVector foundidx logheight
      let u := runningXor flag
      let path j := P.get mem j
      let w j := if j > 0 then flagmult (u (j - 1)) (path (j - 1) - path j) else 0
      let v j := flagmult (flag j) (val - path j)
      { oram := forRange 0 height (fun j mem => P.set mem j (P.get mem j + (w j + v j))) mem
        numItems := numItems }) <$> P.binarySearchTio h.oram val
  else pure none

theorem insertOptimizedTio_fst (h : MinHeap oramSize) (val : Value) (s : Ledger Opening) :
    (h.insertOptimizedTio val s).1 = h.insertOptimized val := by
  unfold insertOptimizedTio insertOptimized
  dsimp only
  split
  · rw [map_fst, Shape.binarySearchTio_fst]
  · rfl

/-- The two comparisons of a node with its children. -/
def restoreOffsetsTio (parent leftchild rightchild : Value) : Tio (Bool × Bool × Value × Value) := do
  let cdpf₀ ← cdpf
  let (lt_c, eq_c, gt_c) ← compare cdpf₀ (leftchild - rightchild)
  let smallerchild := select lt_c rightchild leftchild
  let cdpf0 ← cdpf
  let (lt_p, _, _) ← compare cdpf0 (smallerchild - parent)
  let ltlt1 := lt_c && lt_p
  let update_leftindex_by := flagmult ltlt1 (parent - leftchild)
  let update_index_by := flagmult lt_p (smallerchild - parent)
  return (lt_c, gt_c ^^ eq_c, update_index_by, update_leftindex_by)

@[simp] theorem restoreOffsetsTio_fst (parent leftchild rightchild : Value) (s : Ledger Opening) :
    (restoreOffsetsTio parent leftchild rightchild s).1 = restoreOffsets parent leftchild rightchild :=
  rfl

/-- `MinHeap::restore_heap_property`. -/
def restoreHeapPropertyTio (oramSize : Nat) (mem : Words) (index : Value) : Tio (Value × Words) := do
  let HeapArray := flat oramSize
  let leftchildindex := index <<< 1
  let rightchildindex := leftchildindex ^^^ 1
  let parent := HeapArray.read mem (HeapArray.index index)
  let leftchild := HeapArray.read mem (HeapArray.index leftchildindex)
  let rightchild := HeapArray.read mem (HeapArray.index rightchildindex)
  let (lt_c, _, update_index_by, update_leftindex_by) ← restoreOffsetsTio parent leftchild rightchild
  let smallerindex := select lt_c rightchildindex leftchildindex
  let mem := HeapArray.add mem (HeapArray.index index) update_index_by
  let mem := HeapArray.add mem (HeapArray.index leftchildindex) update_leftindex_by
  let mem := HeapArray.add mem (HeapArray.index rightchildindex)
    (-(update_index_by + update_leftindex_by))
  return (smallerindex, mem)

/-- `MinHeap::restore_heap_property_optimized`. -/
def restoreHeapPropertyOptimizedTio (oramSize : Nat) (mem : Words) (index : Value) (layer : Nat)
    (oidx : Index) : Tio ((Value × Bool) × Words) := do
  let HeapArray := flat oramSize
  let leftchildindex := index <<< 1
  let rightchildindex := leftchildindex ^^^ 1
  let P := Shape.subflat HeapArray (1 <<< layer) (1 <<< layer)
  let C := Shape.subflat HeapArray (2 <<< layer) (2 <<< layer)
  let L := Shape.stride C 0 2
  let R := Shape.stride C 1 2
  let parent := P.read mem oidx
  let leftchild := L.read mem oidx
  let rightchild := R.read mem oidx
  let (lt_c, gteq, update_index_by, update_leftindex_by) ←
    restoreOffsetsTio parent leftchild rightchild
  let smallerindex := select lt_c rightchildindex leftchildindex
  let mem := P.add mem oidx update_index_by
  let mem := L.add mem oidx update_leftindex_by
  let mem := R.add mem oidx (-(update_leftindex_by + update_index_by))
  return ((smallerindex, gteq), mem)

/-- `MinHeap::restore_heap_property_at_explicit_index`. -/
def restoreHeapPropertyAtExplicitIndexTio (oramSize : Nat) (mem : Words) (index : Nat) :
    Tio ((Value × Bool) × Words) := do
  let HeapArray := flat oramSize
  let parent := HeapArray.get mem index
  let leftchild := HeapArray.get mem (2 * index)
  let rightchild := HeapArray.get mem (2 * index + 1)
  let (lt, gteq, update_index_by, update_leftindex_by) ←
    restoreOffsetsTio parent leftchild rightchild
  let leftchildindex := 2 * index
  let rightchildindex := 2 * index + 1
  let smallerindex := (if lt then BitVec.ofNat 64 leftchildindex else 0) ^^^
    (if gteq then BitVec.ofNat 64 rightchildindex else 0)
  let mem := HeapArray.set mem index (HeapArray.get mem index + update_index_by)
  let mem := HeapArray.set mem leftchildindex
    (HeapArray.get mem leftchildindex + update_leftindex_by)
  let mem := HeapArray.set mem rightchildindex
    (HeapArray.get mem rightchildindex + -(update_index_by + update_leftindex_by))
  return ((smallerindex, gteq), mem)

/-- The loop body of the optimized extraction. -/
def extractStepOptimizedTio (oramSize : Nat) (s : Value × Index × Words) (i : Nat) :
    Tio (Value × Index × Words) := do
  let (smaller, oidx, mem) := s
  let (out, mem) ← restoreHeapPropertyOptimizedTio oramSize mem smaller (i + 1) oidx
  return (out.1, oidx.incr out.2, mem)

/-- The loop body of the basic extraction. -/
def extractStepTio (oramSize : Nat) (s : Value × Words) (_ : Nat) : Tio (Value × Words) :=
  let (smaller, mem) := s
  restoreHeapPropertyTio oramSize mem smaller

/-- The loop below the root in the optimized extraction. -/
def loopOptimizedTio (oramSize height : Nat) (isOptimized : Int) (outroot : Value × Bool) (mem : Words) :
    Tio Words :=
  if isOptimized > 0 then
    (fun s => s.2.2) <$> (List.range' 0 (height - 1)).foldlM (extractStepOptimizedTio oramSize)
      (outroot.1, Index.empty.incr outroot.2, mem)
  else pure mem

/-- The loop below the root in the basic extraction. -/
def loopTio (oramSize height : Nat) (isOptimized : Int) (smaller : Value) (mem : Words) : Tio Words :=
  if isOptimized = 0 then
    (fun s => s.2) <$> (List.range' 0 (height - 1)).foldlM (extractStepTio oramSize) (smaller, mem)
  else pure mem

/-- `MinHeap::extract_min`. -/
def extractMinTio (h : MinHeap oramSize) (isOptimized : Int) :
    Tio (Option (Value × MinHeap oramSize)) :=
  let HeapArray := flat oramSize
  let height := Nat.log2 h.numItems
  if h.numItems = 0 ∨ oramSize ≤ h.numItems then pure none
  else
    let minval := HeapArray.get h.oram 1
    let mem := HeapArray.set h.oram 1 (HeapArray.get h.oram h.numItems)
    let mem := HeapArray.set mem h.numItems maxint
    let numItems := h.numItems - 1
    if numItems = 0 then pure (some (minval, ⟨mem, numItems⟩))
    else if oramSize ≤ 3 then pure none
    else do
      let (outroot, mem) ← restoreHeapPropertyAtExplicitIndexTio oramSize mem 1
      let smaller := outroot.1
      let mem ← loopOptimizedTio oramSize height isOptimized outroot mem
      let mem ← loopTio oramSize height isOptimized smaller mem
      return some (minval, ⟨mem, numItems⟩)

theorem loopOptimizedTio_fst (height : Nat) (isOptimized : Int) (outroot : Value × Bool) (mem : Words)
    (s : Ledger Opening) : (loopOptimizedTio oramSize height isOptimized outroot mem s).1 =
      if isOptimized > 0 then
        (forRange 0 (height - 1) (extractStepOptimized oramSize)
          (outroot.1, Index.empty.incr outroot.2, mem)).2.2
      else mem := by
  have hloop : ∀ (l : List Nat) s₀ s, (l.foldlM (extractStepOptimizedTio oramSize) s₀ s).1 =
      l.foldl (fun s i => extractStepOptimized oramSize i s) s₀ :=
    foldlM_fst fun _ _ _ => rfl
  unfold loopOptimizedTio
  split
  · rw [map_fst, hloop]
    rfl
  · rfl

theorem loopTio_fst (height : Nat) (isOptimized : Int) (smaller : Value) (mem : Words)
    (s : Ledger Opening) : (loopTio oramSize height isOptimized smaller mem s).1 =
      if isOptimized = 0 then
        (forRange 0 (height - 1) (fun _ => extractStep oramSize) (smaller, mem)).2
      else mem := by
  have hloop : ∀ (l : List Nat) s₀ s, (l.foldlM (extractStepTio oramSize) s₀ s).1 =
      l.foldl (fun s _ => extractStep oramSize s) s₀ :=
    foldlM_fst fun _ _ _ => rfl
  unfold loopTio
  split
  · rw [map_fst, hloop]
    rfl
  · rfl

theorem extractMinTio_fst (h : MinHeap oramSize) (isOptimized : Int) (s : Ledger Opening) :
    (h.extractMinTio isOptimized s).1 = h.extractMin isOptimized := by
  unfold extractMinTio extractMin
  dsimp only
  split
  · rfl
  · split
    · rfl
    · split
      · rfl
      · have hroot : ∀ mem s, (restoreHeapPropertyAtExplicitIndexTio oramSize mem 1 s).1 =
            restoreHeapPropertyAtExplicitIndex oramSize mem 1 := fun _ _ => rfl
        simp only [bind_fst, hroot, loopOptimizedTio_fst, loopTio_fst, pure_fst]

/-! ## The cached extraction -/

/-- The loop body of `_insertval_m`: one CDPF for the values and for the flag of the parent. -/
def bubbleMTio (A : Shape oramSize) (boolean : Words) (childindex parentindex : Nat) (mem : Words) :
    Tio Words := do
  let sharechild := A.get mem childindex
  let shareparent := A.get mem parentindex
  let sharebooleanparent := A.get boolean parentindex
  let cdpf ← cdpf
  let diff := sharechild - shareparent
  let booleandiff := sharebooleanparent - 1
  let (lt, _, _) ← compare cdpf diff
  let (_, eq1, _) ← compare cdpf booleandiff
  let lt := lt && eq1
  let (sharechild, shareparent) := oswap sharechild shareparent lt
  return A.set (A.set mem childindex sharechild) parentindex shareparent

/-- `MinHeap::_insertval_m`. -/
def insertvalMTio (h obj : MinHeap oramSize) (val : Value) :
    Tio (Option (MinHeap oramSize × MinHeap oramSize)) :=
  let HeapArray := flat oramSize
  let numItems := h.numItems + 1
  if numItems < oramSize then
    let mem := HeapArray.set h.oram numItems val
    let obj := convertBoolNew numItems obj
    (fun mem => some (⟨mem, numItems⟩, obj)) <$> Tio.climb (bubbleMTio HeapArray obj.oram) numItems mem
  else pure none

theorem insertvalMTio_fst (h obj : MinHeap oramSize) (val : Value) (s : Ledger Opening) :
    (h.insertvalMTio obj val s).1 = h.insertvalM obj val := by
  unfold insertvalMTio insertvalM
  dsimp only
  split
  · rw [map_fst, @Tio.climb_fst _ _ (bubbleM (flat oramSize) _) fun _ _ _ _ => rfl]
  · rfl

/-- The loop body of `_restore_heap_property_cache`. -/
def bubbleCacheTio (A : Shape oramSize) (tree : Words) (childindex parentindex : Nat) (mem : Words) :
    Tio Words := do
  let sharechild_ind := A.get mem childindex
  let shareparent_ind := A.get mem parentindex
  let sharechild := A.read tree (A.index sharechild_ind)
  let shareparent := A.read tree (A.index shareparent_ind)
  let cdpf ← cdpf
  let diff := sharechild - shareparent
  let (lt, _, _) ← compare cdpf diff
  let (sharechild_ind, shareparent_ind) := oswap sharechild_ind shareparent_ind lt
  return A.set (A.set mem childindex sharechild_ind) parentindex shareparent_ind

/-- `MinHeap::_restore_heap_property_cache`. -/
def restoreHeapPropertyCacheTio (oramSize : Nat) (tree : Words) (mem : Words) (index : Nat) : Tio Words :=
  Tio.climb (bubbleCacheTio (flat oramSize) tree) index mem

@[simp] theorem restoreHeapPropertyCacheTio_fst (tree mem : Words) (index : Nat) (s : Ledger Opening) :
    (restoreHeapPropertyCacheTio oramSize tree mem index s).1 =
      restoreHeapPropertyCache oramSize tree index mem :=
  @Tio.climb_fst _ _ (bubbleCache (flat oramSize) tree) (fun _ _ _ _ => rfl) index mem s

/-- `MinHeap::_heapify_cache`. -/
def heapifyCacheTio (h : MinHeap oramSize) (obj : MinHeap oramSize) : Tio (MinHeap oramSize) :=
  let n := h.numItems
  (fun oram => { h with oram }) <$>
    (List.range' (n / 2 + 1) (n + 1 - (n / 2 + 1))).foldlM (restoreHeapPropertyCacheTio oramSize obj.oram)
      h.oram

@[simp] theorem heapifyCacheTio_fst (h obj : MinHeap oramSize) (s : Ledger Opening) :
    (h.heapifyCacheTio obj s).1 = h.heapifyCache obj := by
  have hloop : ∀ (l : List Nat) s₀ s, (l.foldlM (restoreHeapPropertyCacheTio oramSize obj.oram) s₀ s).1 =
      l.foldl (fun mem i => restoreHeapPropertyCache oramSize obj.oram i mem) s₀ :=
    foldlM_fst fun _ _ _ => restoreHeapPropertyCacheTio_fst _ _ _ _
  unfold heapifyCacheTio
  rw [map_fst, hloop]
  rfl

/-- `MinHeap::_insertval_c`. -/
def insertvalCTio (h : MinHeap oramSize) (val : Value) (obj : MinHeap oramSize) :
    Tio (Option (MinHeap oramSize)) :=
  let numItems := h.numItems + 1
  if numItems < oramSize then
    let mem := (flat oramSize).set h.oram numItems val
    if numItems = 1 then pure (some ⟨mem, numItems⟩)
    else (fun mem => some ⟨mem, numItems⟩) <$>
      restoreHeapPropertyCacheTio oramSize obj.oram mem numItems
  else pure none

@[simp] theorem insertvalCTio_fst (h : MinHeap oramSize) (val : Value) (obj : MinHeap oramSize)
    (s : Ledger Opening) : (h.insertvalCTio val obj s).1 = h.insertvalC val obj := by
  unfold insertvalCTio insertvalC
  dsimp only
  split
  · split
    · rfl
    · rw [map_fst, restoreHeapPropertyCacheTio_fst]
  · rfl

/-- `MinHeap::_insertclr`. -/
def insertclrTio (h : MinHeap oramSize) (index : Value) (obj : MinHeap oramSize) :
    Tio (Option (MinHeap oramSize)) :=
  let left_child := index <<< 1
  let right_child := left_child + 1
  andThen (h.insertvalCTio left_child obj) fun h => h.insertvalCTio right_child obj

@[simp] theorem insertclrTio_fst (h : MinHeap oramSize) (index : Value) (obj : MinHeap oramSize)
    (s : Ledger Opening) : (h.insertclrTio index obj s).1 = h.insertclr index obj :=
  (andThen_fst _ (fun _ _ => insertvalCTio_fst _ _ _ _) s).trans
    (congrArg (Option.bind · _) (insertvalCTio_fst _ _ _ _))

end MinHeap

namespace FastHeap

variable {oramSize : Nat}

/-- The round of the extraction loop that finds the cache empty. -/
def extractTreeTio (s : FastHeap oramSize) : Tio (Option (FastHeap oramSize × Value)) :=
  match s.tree.extractRoot, s.treeboolean.convertBool 1 with
  | some minval, some treeboolean =>
    andThen (if s.tree.numitems 3 then s.cache.insertvalCTio 3 s.tree else pure (some s.cache))
      fun cache =>
        andThen (if s.tree.numitems 2 then cache.insertvalCTio 2 s.tree else pure (some cache))
          fun cache => pure (some ({ s with treeboolean, cache }, minval))
  | _, _ => pure none

/-- The other rounds. -/
def extractCacheTio (s : FastHeap oramSize) : Tio (Option (FastHeap oramSize × Value)) :=
  match s.cache.extractRoot, s.cache.extractMinCache with
  | some to_extract_index, some (_, cache) => do
    let minval := MinHeap.extractValue to_extract_index s.tree
    let treeboolean := s.treeboolean.convertBoolShared to_extract_index
    let cache ← cache.heapifyCacheTio s.tree
    andThen (cache.insertclrTio to_extract_index s.tree)
      fun cache => pure (some ({ s with treeboolean, cache }, minval))
  | _, _ => pure none

/-- One round of the extraction loop. -/
def extractTio (s : FastHeap oramSize) : Tio (Option (FastHeap oramSize × Value)) :=
  if s.cache.numitems 0 = false then s.extractTreeTio else s.extractCacheTio

theorem insertvalC_if_fst (c : Bool) (h : MinHeap oramSize) (val : Value) (obj : MinHeap oramSize)
    (ledger : Ledger Opening) :
    ((if c then h.insertvalCTio val obj else pure (some h)) ledger).1 =
      if c then h.insertvalC val obj else some h := by
  cases c with
  | false => rfl
  | true => exact MinHeap.insertvalCTio_fst _ _ _ _

theorem extractTreeTio_fst (s : FastHeap oramSize) (ledger : Ledger Opening) :
    (s.extractTreeTio ledger).1 = s.extractTree := by
  unfold extractTreeTio extractTree
  cases s.tree.extractRoot with
  | none => rfl
  | some minval =>
      cases s.treeboolean.convertBool 1 with
      | none => rfl
      | some treeboolean =>
          have hlast : ∀ (cache : MinHeap oramSize) ledger,
              (andThen (if s.tree.numitems 2 then cache.insertvalCTio 2 s.tree else pure (some cache))
                (fun cache => pure (some ({ s with treeboolean, cache }, minval))) ledger).1 =
              (if s.tree.numitems 2 then cache.insertvalC 2 s.tree else some cache).bind
                fun cache => some ({ s with treeboolean, cache }, minval) := by
            intro cache ledger
            rw [andThen_pure_fst, insertvalC_if_fst]
          dsimp only
          rw [andThen_fst _ hlast, insertvalC_if_fst]
          cases s.tree.numitems 3 with
          | false => cases s.tree.numitems 2 <;> rfl
          | true =>
              cases s.tree.numitems 2 <;>
                · cases s.cache.insertvalC 3 s.tree <;> rfl

theorem extractCacheTio_fst (s : FastHeap oramSize) (ledger : Ledger Opening) :
    (s.extractCacheTio ledger).1 = s.extractCache := by
  unfold extractCacheTio extractCache
  cases s.cache.extractRoot with
  | none => rfl
  | some to_extract_index =>
      cases s.cache.extractMinCache with
      | none => rfl
      | some out =>
          dsimp only
          rw [bind_fst, andThen_pure_fst, MinHeap.insertclrTio_fst, MinHeap.heapifyCacheTio_fst]
          rfl

theorem extractTio_fst (s : FastHeap oramSize) (ledger : Ledger Opening) :
    (s.extractTio ledger).1 = s.extract := by
  unfold extractTio extract
  split
  · exact s.extractTreeTio_fst ledger
  · exact s.extractCacheTio_fst ledger

end FastHeap

end Prac
