import Prac.CdpfOpenings

/-!
# Which operations use a CDPF twice

* `compareKeysTio_once`, `insertTio_once` and the others — the operations that use each CDPF once.
* `BST.delRecTio_repeats`, `MinHeap.insertvalMTio_repeats` — the two that open three and two differences
  with one CDPF.
* `Operation`, `opened_once_iff` — in a run of operations no CDPF is used twice iff neither of the two
  is among them, at a size where it gets to compare anything.
-/

namespace Prac

open OneTime Tio

/-! ## Rules -/

namespace Tio

variable {α β σ : Type}

theorem compare_isUse (cdpf : Nat) (x : Value) : IsUse cdpf (compare cdpf x) := fun _ => ⟨_, rfl⟩

theorem isZero_isUse (cdpf : Nat) (x : Value) : IsUse cdpf (isZero cdpf x) := fun _ => ⟨_, rfl⟩

/-- A CDPF for one comparison. -/
theorem once_compare {x : Value} {k : Bool × Bool × Bool → Tio α} (hk : ∀ cmp, Once (k cmp)) :
    Once (cdpf >>= fun cdpf => compare cdpf x >>= k) :=
  Once.take_use (fun t => compare_isUse t x) hk

/-- A CDPF for one test for zero. -/
theorem once_isZero {x : Value} {k : Bool → Tio α} (hk : ∀ eq, Once (k eq)) :
    Once (cdpf >>= fun cdpf => isZero cdpf x >>= k) :=
  Once.take_use (fun t => isZero_isUse t x) hk

theorem once_andThen {m : Tio (Option α)} {f : α → Tio (Option β)} (hm : Once m)
    (hf : ∀ a, Once (f a)) : Once (andThen m f) := by
  refine hm.bind fun o => ?_
  cases o with
  | none => exact Once.pure none
  | some a => exact hf a

theorem once_climb {body : Nat → Nat → σ → Tio σ} (h : ∀ c p s, Once (body c p s)) (child : Nat) :
    ∀ s, Once (climb body child s) := by
  induction child using Nat.strong_induction_on with
  | _ child ih =>
      intro s
      rw [climb]
      split
      · exact (h _ _ _).bind fun s => ih (child / 2) (by omega) s
      · exact Once.pure s

theorem own_climb {body : Nat → Nat → σ → Tio σ} (h : ∀ c p s, Own (body c p s)) (child : Nat) :
    ∀ s, Own (climb body child s) := by
  induction child using Nat.strong_induction_on with
  | _ child ih =>
      intro s
      rw [climb]
      split
      · exact (h _ _ _).bind fun s => ih (child / 2) (by omega) s
      · exact (Once.pure s).own

end Tio

/-! ## The binary search tree -/

namespace BST

variable {oramSize : Nat}

theorem compareKeysTio_once (k1 k2 : Value) : Once (compareKeysTio k1 k2) :=
  once_compare fun _ => Once.pure _

theorem insertRecTio_once (mem : Nodes) (key : Value) (TTL : Nat) :
    ∀ (ptr : Value) (isDummy : Bool), Once (insertRecTio oramSize mem key TTL ptr isDummy) := by
  induction TTL with
  | zero => intro ptr isDummy; exact Once.pure _
  | succ TTL ih =>
      intro ptr isDummy
      rw [insertRecTio]
      refine (compareKeysTio_once _ _).bind fun cmp => ?_
      exact once_isZero fun F_z => (ih _ _).bind fun _ => Once.pure _

theorem linkTio_once (b : BST oramSize) (TTL : Nat) (insert_address key : Value) :
    Once (b.linkTio TTL insert_address key) :=
  (insertRecTio_once _ _ _ _ _).bind fun _ => Once.pure _

theorem insertTio_once (b : BST oramSize) (node : Node) : Once (b.insertTio node) := by
  unfold insertTio
  dsimp only
  split
  · split
    · exact Once.pure _
    · exact Once.pure _
  · cases b.emptyLocations with
    | cons insert_address emptyLocations => exact (linkTio_once _ _ _ _).map _
    | nil =>
        dsimp only
        split
        · exact (linkTio_once _ _ _ _).map _
        · exact Once.pure _

theorem lookupRecTio_once (mem : Nodes) (key : Value) (TTL : Nat) :
    ∀ (ptr : Value) (isDummy : Bool) (ret_node : Node),
      Once (lookupRecTio oramSize mem key TTL ptr isDummy ret_node) := by
  induction TTL with
  | zero => intro ptr isDummy ret_node; exact Once.pure _
  | succ TTL ih =>
      intro ptr isDummy ret_node
      rw [lookupRecTio]
      exact once_compare fun _ => ih _ _ _

/-- At every level of a deletion, three differences are opened with one CDPF. -/
theorem delRecTio_step {key : Value} {TTL : Nat}
    (h : ∀ ptr af fs s, Own (delRecTio oramSize key TTL ptr af fs s)) (ptr : Value) (af fs : Bool)
    (s : Nodes × DelReturn) : Repeats (delRecTio oramSize key (TTL + 1) ptr af fs s) := by
  obtain ⟨mem, ret⟩ := s
  rw [delRecTio]
  refine Repeats.take_use_use (fun t => isZero_isUse t _) (fun t _ => isZero_isUse t _)
    fun t l0 r0 => OwnOr.use (compare_isUse t _) fun cmp => ?_
  exact ((h _ _ _ _).map _).ownOr t

theorem delRecTio_own (key : Value) (TTL : Nat) :
    ∀ ptr af fs s, Own (delRecTio oramSize key TTL ptr af fs s) := by
  induction TTL with
  | zero => intro ptr af fs s; exact (Once.pure _).own
  | succ TTL ih => intro ptr af fs s; exact (delRecTio_step ih ptr af fs s).own

/-- A deletion from at least two nodes uses a CDPF more than once, and other deletions use none. -/
theorem delTio_cases (b : BST oramSize) (key : Value) :
    (2 ≤ b.numItems → Repeats (b.delTio key)) ∧ (¬2 ≤ b.numItems → Once (b.delTio key)) := by
  unfold delTio
  dsimp only
  split
  · exact ⟨fun h => by omega, fun _ => Once.pure _⟩
  · split
    · exact ⟨fun h => by omega, fun _ => Once.pure _⟩
    · refine ⟨fun _ => ?_, fun h => by omega⟩
      obtain ⟨TTL, hTTL⟩ : ∃ TTL, b.numItems = TTL + 1 := ⟨b.numItems - 1, by omega⟩
      rw [hTTL]
      exact (delRecTio_step (delRecTio_own key TTL) _ _ _ _).map _

end BST

/-! ## The heap -/

namespace Shape

variable {oramSize : Nat}

theorem searchLoopTio_once (P : Shape oramSize) (mem : Words) (target : Value) (depth : Nat) :
    ∀ oidx, Once (searchLoopTio P mem target depth oidx) := by
  induction depth with
  | zero => intro oidx; exact Once.pure _
  | succ depth ih =>
      intro oidx
      rw [searchLoopTio]
      exact once_compare fun _ => ih _

theorem binarySearchTio_once (A : Shape oramSize) (mem : Words) (target : Value) :
    Once (A.binarySearchTio mem target) := by
  unfold binarySearchTio
  split
  · exact Once.pure _
  · dsimp only
    split
    · exact Once.pure _
    · refine once_compare fun cmp => ?_
      split
      · exact Once.pure _
      · exact (searchLoopTio_once _ _ _ _ _).map _

end Shape

namespace MinHeap

variable {oramSize : Nat}

theorem bubbleTio_once (A : Shape oramSize) (c p : Nat) (mem : Words) : Once (bubbleTio A c p mem) :=
  once_compare fun _ => Once.pure _

theorem insertTio_once (h : MinHeap oramSize) (val : Value) : Once (h.insertTio val) := by
  unfold insertTio
  dsimp only
  split
  · exact (once_climb (bubbleTio_once _) _ _).map _
  · exact Once.pure _

theorem insertOptimizedTio_once (h : MinHeap oramSize) (val : Value) :
    Once (h.insertOptimizedTio val) := by
  unfold insertOptimizedTio
  dsimp only
  split
  · exact (Shape.binarySearchTio_once _ _ _).map _
  · exact Once.pure _

/-- The two comparisons of a node with its children have a CDPF each. -/
theorem restoreOffsetsTio_once (parent leftchild rightchild : Value) :
    Once (restoreOffsetsTio parent leftchild rightchild) :=
  once_compare fun _ => once_compare fun _ => Once.pure _

theorem loopOptimizedTio_once (height : Nat) (isOptimized : Int) (outroot : Value × Bool) (mem : Words) :
    Once (loopOptimizedTio oramSize height isOptimized outroot mem) := by
  unfold loopOptimizedTio
  split
  · refine (Once.foldlM (fun s i => ?_) _ _).map _
    exact ((restoreOffsetsTio_once _ _ _).bind fun _ => Once.pure _).bind fun _ => Once.pure _
  · exact Once.pure _

theorem loopTio_once (height : Nat) (isOptimized : Int) (smaller : Value) (mem : Words) :
    Once (loopTio oramSize height isOptimized smaller mem) := by
  unfold loopTio
  split
  · refine (Once.foldlM (fun s i => ?_) _ _).map _
    exact (restoreOffsetsTio_once _ _ _).bind fun _ => Once.pure _
  · exact Once.pure _

theorem extractMinTio_once (h : MinHeap oramSize) (isOptimized : Int) :
    Once (h.extractMinTio isOptimized) := by
  unfold extractMinTio
  dsimp only
  split
  · exact Once.pure _
  · split
    · exact Once.pure _
    · split
      · exact Once.pure _
      · refine ((restoreOffsetsTio_once _ _ _).bind fun _ => Once.pure _).bind fun out => ?_
        refine (loopOptimizedTio_once _ _ _ _).bind fun mem => ?_
        exact (loopTio_once _ _ _ _).bind fun mem => Once.pure _

/-! ## The cached extraction -/

/-- A value and a flag are compared with one CDPF. -/
theorem bubbleMTio_repeats (A : Shape oramSize) (boolean : Words) (c p : Nat) (mem : Words) :
    Repeats (bubbleMTio A boolean c p mem) :=
  Repeats.take_use_use (fun t => compare_isUse t _) (fun t _ => compare_isUse t _)
    fun t _ _ => (Once.pure _).own.ownOr t

/-- An insertion below the root uses a CDPF twice, and other insertions use none. -/
theorem insertvalMTio_cases (h obj : MinHeap oramSize) (val : Value) :
    (1 ≤ h.numItems ∧ h.numItems + 1 < oramSize → Repeats (h.insertvalMTio obj val)) ∧
      (¬(1 ≤ h.numItems ∧ h.numItems + 1 < oramSize) → Once (h.insertvalMTio obj val)) := by
  unfold insertvalMTio
  dsimp only
  split
  · rename_i hlt
    rw [climb]
    split
    · refine ⟨fun _ => ?_, fun h => by omega⟩
      refine Repeats.map ((bubbleMTio_repeats _ _ _ _ _).bind_left fun mem => ?_) _
      exact own_climb (fun _ _ _ => (bubbleMTio_repeats _ _ _ _ _).own) _ _
    · exact ⟨fun h => by omega, fun _ => Once.pure _⟩
  · rename_i hge
    exact ⟨fun h => absurd h.2 hge, fun _ => Once.pure _⟩

theorem restoreHeapPropertyCacheTio_once (tree mem : Words) (index : Nat) :
    Once (restoreHeapPropertyCacheTio oramSize tree mem index) :=
  once_climb (fun _ _ _ => once_compare fun _ => Once.pure _) _ _

theorem heapifyCacheTio_once (h obj : MinHeap oramSize) : Once (h.heapifyCacheTio obj) :=
  (Once.foldlM (fun _ _ => restoreHeapPropertyCacheTio_once _ _ _) _ _).map _

theorem insertvalCTio_once (h : MinHeap oramSize) (val : Value) (obj : MinHeap oramSize) :
    Once (h.insertvalCTio val obj) := by
  unfold insertvalCTio
  dsimp only
  split
  · split
    · exact Once.pure _
    · exact (restoreHeapPropertyCacheTio_once _ _ _).map _
  · exact Once.pure _

theorem insertclrTio_once (h : MinHeap oramSize) (index : Value) (obj : MinHeap oramSize) :
    Once (h.insertclrTio index obj) :=
  once_andThen (insertvalCTio_once _ _ _) fun _ => insertvalCTio_once _ _ _

end MinHeap

namespace FastHeap

variable {oramSize : Nat}

theorem extractTio_once (s : FastHeap oramSize) : Once s.extractTio := by
  unfold extractTio
  split
  · unfold extractTreeTio
    split
    · refine once_andThen ?_ fun cache => once_andThen ?_ fun cache => Once.pure _
      · split
        · exact MinHeap.insertvalCTio_once _ _ _
        · exact Once.pure _
      · split
        · exact MinHeap.insertvalCTio_once _ _ _
        · exact Once.pure _
    · exact Once.pure _
  · unfold extractCacheTio
    split
    · refine (MinHeap.heapifyCacheTio_once _ _).bind fun cache => ?_
      exact once_andThen (MinHeap.insertclrTio_once _ _ _) fun cache => Once.pure _
    · exact Once.pure _

end FastHeap

/-! ## Runs -/

/-- An operation, with the object that it is applied to. -/
inductive Operation where
  | bstInsert {oramSize : Nat} (b : BST oramSize) (node : Node)
  | bstLookup {oramSize : Nat} (b : BST oramSize) (key : Value) (ret_node : Node)
  | bstDel {oramSize : Nat} (b : BST oramSize) (del_key : Value)
  | heapInsert {oramSize : Nat} (h : MinHeap oramSize) (val : Value)
  | heapInsertOptimized {oramSize : Nat} (h : MinHeap oramSize) (val : Value)
  | extractMin {oramSize : Nat} (h : MinHeap oramSize) (isOptimized : Int)
  | insertvalM {oramSize : Nat} (h obj : MinHeap oramSize) (val : Value)
  | extractCached {oramSize : Nat} (s : FastHeap oramSize)

namespace Operation

/-- What an operation opens. -/
def tio : Operation → Tio Unit
  | .bstInsert b node => (fun _ => ()) <$> b.insertTio node
  | .bstLookup b key ret_node => (fun _ => ()) <$> b.lookupTio key ret_node
  | .bstDel b del_key => (fun _ => ()) <$> b.delTio del_key
  | .heapInsert h val => (fun _ => ()) <$> h.insertTio val
  | .heapInsertOptimized h val => (fun _ => ()) <$> h.insertOptimizedTio val
  | .extractMin h isOptimized => (fun _ => ()) <$> h.extractMinTio isOptimized
  | .insertvalM h obj val => (fun _ => ()) <$> h.insertvalMTio obj val
  | .extractCached s => (fun _ => ()) <$> s.extractTio

/-- A BST deletion from at least two nodes, or an `_insertval_m` into a heap that is not empty, with room
for the new item. -/
def Reuses : Operation → Prop
  | .bstDel b _ => 2 ≤ b.numItems
  | @insertvalM oramSize h _ _ => 1 ≤ h.numItems ∧ h.numItems + 1 < oramSize
  | _ => False

theorem tio_once (op : Operation) (h : ¬op.Reuses) : Once op.tio := by
  cases op with
  | bstInsert b node => exact (b.insertTio_once node).map _
  | bstLookup b key ret_node => exact (BST.lookupRecTio_once _ _ _ _ _ _).map _
  | bstDel b del_key => exact ((b.delTio_cases del_key).2 h).map _
  | heapInsert heap val => exact (heap.insertTio_once val).map _
  | heapInsertOptimized heap val => exact (heap.insertOptimizedTio_once val).map _
  | extractMin heap isOptimized => exact (heap.extractMinTio_once isOptimized).map _
  | insertvalM heap obj val => exact ((heap.insertvalMTio_cases obj val).2 h).map _
  | extractCached s => exact s.extractTio_once.map _

theorem tio_repeats (op : Operation) (h : op.Reuses) : Repeats op.tio := by
  cases op with
  | bstDel b del_key => exact ((b.delTio_cases del_key).1 h).map _
  | insertvalM heap obj val => exact ((heap.insertvalMTio_cases obj val).1 h).map _
  | bstInsert b node => exact absurd h not_false
  | bstLookup b key ret_node => exact absurd h not_false
  | heapInsert heap val => exact absurd h not_false
  | heapInsertOptimized heap val => exact absurd h not_false
  | extractMin heap isOptimized => exact absurd h not_false
  | extractCached s => exact absurd h not_false

end Operation

/-- The CDPFs that a run of operations opens differences of, one entry for each difference.  The states
that the operations are applied to need not follow from one another, so that the runs on any number of
objects are among these. -/
def openedBy (ops : List Operation) : List (Nat × Opening) := usesOf (inOrder Operation.tio ops)

/-- **In a run of operations no CDPF has two differences opened iff it has no BST deletion from at least
two nodes and no `_insertval_m` below the root.** -/
theorem opened_once_iff (ops : List Operation) :
    ((openedBy ops).map Prod.fst).Nodup ↔ ∀ op ∈ ops, ¬op.Reuses :=
  nodup_inOrder_iff Operation.tio_once Operation.tio_repeats ops

/-- Two differences from one target give away how the two values differ, whatever the target is. -/
theorem Opening.difference_leaks (target x y : Value) :
    Opening.difference target ⟨true, x⟩ ^^^ Opening.difference target ⟨true, y⟩ = x ^^^ y ∧
      Opening.difference target ⟨false, y⟩ - Opening.difference target ⟨false, x⟩ = x - y := by
  constructor
  · change (target ^^^ x) ^^^ (target ^^^ y) = x ^^^ y
    rw [BitVec.xor_comm target x, BitVec.xor_assoc, ← BitVec.xor_assoc target, BitVec.xor_self,
      BitVec.zero_xor]
  · change target - y - (target - x) = x - y
    ring

/-- Deleting the root of two nodes opens both its pointers and the comparison of the key with one CDPF, so
that the players learn the XOR of the pointers; `_insertval_m` compares a value and a flag with one. -/
theorem opened_twice :
    (openedBy [.bstDel BST.twoNodes 10]).take 3 = [(0, ⟨true, 0⟩), (0, ⟨true, 3⟩), (0, ⟨false, 0⟩)] ∧
    (∀ target, Opening.difference target ⟨true, 0⟩ ^^^ Opening.difference target ⟨true, 3⟩ = 3) ∧
    ¬((openedBy [.bstDel BST.twoNodes 10]).map Prod.fst).Nodup ∧
    openedBy [.insertvalM (.initN 1 : MinHeap 4) (.initforbool 1) 50] =
      [(0, ⟨false, 50 - 100⟩), (0, ⟨false, 0⟩)] := by
  have hdel : (openedBy [.bstDel BST.twoNodes 10]).take 3 =
      [(0, ⟨true, 0⟩), (0, ⟨true, 3⟩), (0, ⟨false, 0⟩)] := by decide +kernel
  refine ⟨hdel, fun target => (Opening.difference_leaks target 0 3).1, fun hnodup => ?_, ?_⟩
  · have htake := (hnodup.sublist ((List.take_sublist 3 _).map Prod.fst))
    rw [hdel] at htake
    exact absurd htake (by decide)
  · decide +kernel

end Prac
