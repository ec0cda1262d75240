import Prac.Nodes

/-!
# The oblivious binary search tree (`bst.hpp`, `bst.cpp`)

The tree on reconstructed values: every access acts on exactly its addressed cell, and the gadgets
compute their ideal functions.  An explicit access outside the memory is a failure.

* `extractLeftPtr`, `setLeftPtr` and the right ones — the two 32-bit links packed in a word.
* `BST.insert`, `BST.lookup`, `BST.del` — the operations, with their recursions of a fixed number of
  steps.
* `BST.checkBst` — the check of the search-tree invariant.
-/

namespace Prac

/-! ## Pointers -/

/-- `extractLeftPtr`. -/
def extractLeftPtr (pointer : Value) : Value := (pointer &&& (0xFFFFFFFF00000000 : Value)) >>> 32

/-- `extractRightPtr`. -/
def extractRightPtr (pointer : Value) : Value := pointer &&& 0x00000000FFFFFFFF

/-- `setLeftPtr`. -/
def setLeftPtr (pointer new_ptr : Value) : Value :=
  (pointer &&& (0x00000000FFFFFFFF : Value)) ^^^ (new_ptr <<< 32)

/-- `setRightPtr`. -/
def setRightPtr (pointer new_ptr : Value) : Value :=
  (pointer &&& (0xFFFFFFFF00000000 : Value)) ^^^ new_ptr

/-- `compare_keys`: go left, go right. -/
def compareKeys (k1 k2 : Value) : Bool × Bool :=
  let (lt, eq, gt) := signedCompare (k2 - k1)
  (lt ^^ eq, gt)

/-- `BST`.  The end of `empty_locations` is the head of the list. -/
structure BST (oramSize : Nat) where
  oram : Nodes
  root : Value
  numItems : Nat
  emptyLocations : List Value

namespace BST

variable {oramSize : Nat}

/-- `oram.flat(tio, yield)`. -/
abbrev flat (oramSize : Nat) : Shape oramSize := (Shape.whole oramSize).val

/-- The constructor. -/
def init : BST oramSize := ⟨⟨fun _ => 0, fun _ => 0, fun _ => 0⟩, 0, 0, []⟩

/-! ## Insertion -/

/-- The recursive `insert`: the node where the insertion happens, and whether on the right. -/
def insertRec (oramSize : Nat) (mem : Nodes) (insertion_key : Value) :
    (TTL : Nat) → (ptr : Value) → (isDummy : Bool) → Value × Bool
  | 0, ptr, _ => (ptr, false)
  | TTL + 1, ptr, isDummy =>
    let A := flat oramSize
    let isNotDummy := !isDummy
    let cnode := mem.read A (A.index ptr)
    let (_, gt) := compareKeys cnode.key insertion_key
    let left := extractLeftPtr cnode.pointers
    let right := extractRightPtr cnode.pointers
    let next_ptr := selectBits 32 gt left right
    let F_z := decide (next_ptr = 0)
    let F_i := isNotDummy && F_z
    let isDummy := isDummy ^^ F_i
    let (wptr, direction) := insertRec oramSize mem insertion_key TTL next_ptr isDummy
    let ret_ptr := select F_i wptr ptr
    let ret_direction := (F_i && (direction ^^ gt)) ^^ direction
    (ret_ptr, ret_direction)

/-- The end of `insert`: the recursion, and the link to the new node. -/
def link (b : BST oramSize) (TTL : Nat) (insert_address key : Value) : BST oramSize :=
  let A := flat oramSize
  let (wptr, direction) := insertRec oramSize b.oram key TTL b.root false
  let pointers := (b.oram.read A (A.index wptr)).pointers
  let left_ptr := extractLeftPtr pointers
  let right_ptr := extractRightPtr pointers
  let new_right_ptr := select direction right_ptr insert_address
  let new_left_ptr := select (!direction) left_ptr insert_address
  let pointers := setLeftPtr pointers new_left_ptr
  let pointers := setRightPtr pointers new_right_ptr
  { b with oram := b.oram.writePointers A (A.index wptr) pointers }

/-- `BST::insert`.  `new_id` is an `int` in the source: a fresh address is this number below `2 ^ 31`. -/
def insert (b : BST oramSize) (node : Node) : Option (BST oramSize) :=
  let A := flat oramSize
  if b.numItems = 0 then
    if 1 < oramSize then some { b with oram := b.oram.set A 1 node, root := 1, numItems := 1 }
    else none
  else
    let TTL := b.numItems
    let numItems := b.numItems + 1
    match b.emptyLocations with
    | insert_address :: emptyLocations =>
      let oram := b.oram.write A (A.index insert_address) node
      some (link { b with oram, numItems, emptyLocations } TTL insert_address node.key)
    | [] =>
      let new_id := 1 + numItems
      if new_id < oramSize then
        let oram := b.oram.set A new_id node
        some (link { b with oram, numItems } TTL (BitVec.ofNat 64 new_id) node.key)
      else none

/-! ## Lookup -/

/-- The recursive `lookup`: whether the key was found, and the node returned through `ret_node`. -/
def lookupRec (oramSize : Nat) (mem : Nodes) (key : Value) :
    (TTL : Nat) → (ptr : Value) → (isDummy : Bool) → (ret_node : Node) → Bool × Node
  | 0, _, isDummy, ret_node => (isDummy, ret_node)
  | TTL + 1, ptr, isDummy, ret_node =>
    let A := flat oramSize
    let cnode := mem.read A (A.index ptr)
    let (_, eq, gt) := signedCompare (key - cnode.key)
    let left := extractLeftPtr cnode.pointers
    let right := extractRightPtr cnode.pointers
    let next_ptr := selectBits 32 gt left right
    let ret_node := { ret_node with
      key := select eq ret_node.key cnode.key
      value := select eq ret_node.value cnode.value }
    lookupRec oramSize mem key TTL next_ptr (isDummy || eq) ret_node

/-- `BST::lookup`. -/
def lookup (b : BST oramSize) (key : Value) (ret_node : Node) : Bool × Node :=
  lookupRec oramSize b.oram key b.numItems b.root false ret_node

/-! ## Deletion -/

/-- `del_return`. -/
structure DelReturn where
  F_ss : Bool
  N_d : Value
  N_s : Value
  F_r : Bool
  ret_ptr : Value

/-- A `del_return` as constructed. -/
def DelReturn.init : DelReturn := ⟨false, 0, 0, false, 0⟩

/-- The recursive `del`: the flags `af` (already found) and `fs` (find successor) are passed down, the
memory and the return structure are updated on the way back. -/
def delRec (oramSize : Nat) (del_key : Value) : (TTL : Nat) → (ptr : Value) → (af fs : Bool) →
    Nodes × DelReturn → Bool × Nodes × DelReturn
  | 0, _, af, _, (mem, ret) => (af, mem, { ret with F_r := !ret.F_r })
  | TTL + 1, ptr, af, fs, (mem, ret) =>
    let A := flat oramSize
    let node := mem.read A (A.index ptr)
    let left := extractLeftPtr node.pointers
    let right := extractRightPtr node.pointers
    let l0 := decide (left = 0)
    let r0 := decide (right = 0)
    let (_, eq, gt) := signedCompare (del_key - node.key)
    let c := gt
    let lf := eq
    let F_1 := l0 ^^ r0
    let F_c1 := lf && F_1
    let F_0 := l0 && r0
    let F_2 := !(F_0 ^^ F_1)
    let c_prime := select F_c1 c l0
    let F_c2 := lf && F_2
    let c_prime := select F_c2 c_prime true
    let F_c3 := fs && F_2
    let c_prime := select F_c3 c_prime false
    let F_c4 := fs && l0
    let c_prime := select F_c4 c_prime l0
    let next_ptr := selectBits 32 c_prime left right
    let af_prime := af || lf
    let fs_prime := (fs || F_c2) ^^ F_c4
    match delRec oramSize del_key TTL next_ptr af_prime fs_prime (mem, ret) with
    | (false, mem, ret) => (false, mem, ret)
    | (true, mem, ret) =>
      let F_rs_right := c_prime && ret.F_r
      let F_rs_left := !c_prime && ret.F_r
      let right := select F_rs_right right ret.ret_ptr
      let left := select F_rs_left left ret.ret_ptr
      let new_ptr := setLeftPtr 0 left
      let new_ptr := setRightPtr new_ptr right
      let mem := mem.writePointers A (A.index ptr) new_ptr
      let F_ns := F_c4
      let F_nd := lf && !af
      let F_r := (F_nd && !F_2) || F_ns
      (true, mem,
        { F_ss := ret.F_ss || F_c2
          N_d := select F_nd ret.N_d ptr
          N_s := select F_ns ret.N_s ptr
          F_r := F_r
          ret_ptr := select F_r ptr ret.ret_ptr })

/-- `BST::del`.  The four assignments at the end concern different fields or different cells. -/
def del (b : BST oramSize) (del_key : Value) : Bool × BST oramSize :=
  let A := flat oramSize
  if b.numItems = 0 then (false, b)
  else if b.numItems = 1 then
    (true, { b with
      oram := b.oram.write A (A.index b.root) 0
      numItems := 0
      emptyLocations := b.root :: b.emptyLocations })
  else
    match delRec oramSize del_key b.numItems b.root false false (b.oram, .init) with
    | (false, mem, _) => (false, { b with oram := mem })
    | (true, mem, ret) =>
      let del_node := mem.read A (A.index ret.N_d)
      let suc_node := mem.read A (A.index ret.N_s)
      let root := select ret.F_r b.root ret.ret_ptr
      let key := select ret.F_ss del_node.key suc_node.key
      let value := select ret.F_ss del_node.value suc_node.value
      let empty_loc := select ret.F_ss ret.N_d ret.N_s
      let mem := mem.writeKey A (A.index ret.N_d) key
      let mem := mem.writeValue A (A.index ret.N_d) value
      let mem := mem.writeKey A (A.index ret.N_s) 0
      let mem := mem.writeValue A (A.index ret.N_s) 0
      (true, { oram := mem, root := root, numItems := b.numItems - 1,
               emptyLocations := empty_loc :: b.emptyLocations })

/-! ## The check -/

/-- The recursive `check_bst` on the reconstructed nodes `R`: whether the invariant holds, and the
height.  The recursion does not end on a cycle. -/
def checkBst (oramSize : Nat) (R : Nodes) :
    (fuel : Nat) → (node min_key max_key : Value) → Option (Bool × Nat)
  | 0, _, _, _ => none
  | fuel + 1, node, min_key, max_key =>
    if node = 0 then some (true, 0)
    else if node.toNat < oramSize then
      let n := R.holds node.toNat
      let key := n.key
      let left_ptr := extractLeftPtr n.pointers
      let right_ptr := extractRightPtr n.pointers
      match checkBst oramSize R fuel left_ptr min_key key,
        checkBst oramSize R fuel right_ptr (key + 1) max_key with
      | some (leftok, leftheight), some (rightok, rightheight) =>
        let height := max leftheight rightheight + 1
        some (leftok && rightok && decide (min_key ≤ key) && decide (key ≤ max_key), height)
      | _, _ => none
    else none

/-- `check_bst` accepts the tree. -/
def Accepted (b : BST oramSize) : Prop :=
  ∃ fuel height, checkBst oramSize b.oram fuel b.root 0 (~~~0) = some (true, height)

end BST

end Prac
