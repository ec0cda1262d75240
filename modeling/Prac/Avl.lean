import Prac.Bst
import Mathlib.Data.Nat.Log

/-!
# The oblivious AVL tree (`avl.hpp`, `avl.cpp`)

The tree on reconstructed values, as for the BST.  `OPTIMIZED` is the constant of the constructor: the
optimized operations keep an oblivious index from a read to the update of the same node, and add the
difference from the word they read; the others overwrite the word.

* `getAVLLeftPtr`, `setLeftBal` and the others — two 31-bit links and two balance bits in a word.
* `AVL.rotate`, `AVL.updateBalanceIns`, `AVL.updateBalanceDel` — the local steps.
* `AVL.insert`, `AVL.lookup`, `AVL.del` — the operations.
* `AVL.checkAvl` — the check of the invariants.
-/

namespace Prac

/-! ## Pointers -/

/-- `getAVLLeftPtr`. -/
def getAVLLeftPtr (pointer : Value) : Value := pointer >>> 33

/-- `getAVLRightPtr`. -/
def getAVLRightPtr (pointer : Value) : Value := (pointer &&& (0x00000001FFFFFFFC : Value)) >>> 2

/-- `setAVLLeftPtr`. -/
def setAVLLeftPtr (pointer new_ptr : Value) : Value :=
  (pointer &&& (0x00000001FFFFFFFF : Value)) ^^^ (new_ptr <<< 33)

/-- `setAVLRightPtr`. -/
def setAVLRightPtr (pointer new_ptr : Value) : Value :=
  (pointer &&& (0xFFFFFFFE00000003 : Value)) ^^^ (new_ptr <<< 2)

/-- `getLeftBal`. -/
def getLeftBal (pointer : Value) : Bool := decide ((pointer &&& (0x0000000000000002 : Value)) >>> 1 ≠ 0)

/-- `getRightBal`. -/
def getRightBal (pointer : Value) : Bool := decide (pointer &&& (0x0000000000000001 : Value) ≠ 0)

/-- `setLeftBal`. -/
def setLeftBal (pointer : Value) (bal_l : Bool) : Value :=
  (pointer &&& (0xFFFFFFFFFFFFFFFD : Value)) ^^^ (BitVec.ofNat 64 bal_l.toNat <<< 1)

/-- `setRightBal`. -/
def setRightBal (pointer : Value) (bal_r : Bool) : Value :=
  (pointer &&& (0xFFFFFFFFFFFFFFFE : Value)) ^^^ BitVec.ofNat 64 bal_r.toNat

/-! ## Updates by a difference -/

/-- An oblivious update of an XOR-shared word, `A[oidx] += M`. -/
def Shape.addXor {oramSize : Nat} (A : Shape oramSize) (mem : Words) (oidx : Index) (M : Value) : Words :=
  if oidx.pos < A.size then A.set mem oidx.pos (A.get mem oidx.pos ^^^ M) else mem

/-- `A[oidx].NODE_KEY += M`. -/
def Nodes.addKey {oramSize : Nat} (A : Shape oramSize) (mem : Nodes) (oidx : Index) (M : Value) : Nodes :=
  { mem with key := A.add mem.key oidx M }

/-- `A[oidx].NODE_POINTERS += M`. -/
def Nodes.addPointers {oramSize : Nat} (A : Shape oramSize) (mem : Nodes) (oidx : Index) (M : Value) :
    Nodes :=
  { mem with pointers := A.addXor mem.pointers oidx M }

/-- `A[oidx].NODE_VALUE += M`. -/
def Nodes.addValue {oramSize : Nat} (A : Shape oramSize) (mem : Nodes) (oidx : Index) (M : Value) :
    Nodes :=
  { mem with value := A.addXor mem.value oidx M }

/-- `AVL_TTL`: `ceil(1.44 * log2(n))`, where `1.44` is `36 / 25`. -/
def AVL_TTL (n : Nat) : Nat := if n = 0 then 0 else if n = 1 then 1 else Nat.clog (2 ^ 25) (n ^ 36)

/-- `AVL`, without the constant `OPTIMIZED`.  The end of `empty_locations` is the head of the list. -/
structure AVL (oramSize : Nat) where
  oram : Nodes
  root : Value
  numItems : Nat
  curMaxIndex : Nat
  emptyLocations : List Value

namespace AVL

variable {oramSize : Nat}

/-- A new `AVL`. -/
def init : AVL oramSize := ⟨⟨fun _ => 0, fun _ => 0, fun _ => 0⟩, 0, 0, 0, []⟩

/-- `oram.flat(tio, yield, 0, cur_max_index+1)`. -/
def flat (oramSize cur_max_index : Nat) : Shape oramSize := .flat 0 (cur_max_index + 1)

/-- `ceil(log2(cur_max_index+1))`. -/
def width (cur_max_index : Nat) : Nat := Nat.clog 2 (cur_max_index + 1)

/-- The update of the links of a node that was read as `old`. -/
def updatePointers (OPTIMIZED : Bool) (A : Shape oramSize) (mem : Nodes) (oidx : Index) (ptr new old : Value) :
    Nodes :=
  if OPTIMIZED then mem.addPointers A oidx (new ^^^ old) else mem.writePointers A (A.index ptr) new

/-- A node through the oblivious index, or through a new one. -/
def readNode (OPTIMIZED : Bool) (A : Shape oramSize) (mem : Nodes) (oidx : Index) (ptr : Value) : Node :=
  if OPTIMIZED then mem.read A oidx else mem.read A (A.index ptr)

/-! ## Local steps -/

/-- `rotate`: the links of the grandparent, the parent and the child. -/
def rotate (gp_pointers p_ptr p_pointers c_ptr c_pointers : Value) (dir_gpp dir_pc isReal F_gp : Bool) :
    Value × Value × Value :=
  let gp_left := getAVLLeftPtr gp_pointers
  let gp_right := getAVLRightPtr gp_pointers
  let p_left := getAVLLeftPtr p_pointers
  let p_right := getAVLRightPtr p_pointers
  let c_left := getAVLLeftPtr c_pointers
  let c_right := getAVLRightPtr c_pointers
  let F_gp := !F_gp
  let F_gpp := F_gp && isReal
  let not_dir_gpp := !dir_gpp
  let ptr_upd := select F_gpp p_ptr c_ptr
  let not_dir_pc_l := dir_pc
  let not_dir_pc_r := !dir_pc
  let nt_dir_pc := !dir_pc
  let F_gppr := F_gpp && dir_gpp
  let F_gppl := F_gpp && not_dir_gpp
  let F_ndpc_right := isReal && not_dir_pc_r
  let F_ndpc_left := isReal && not_dir_pc_l
  let F_pc_l := dir_pc && isReal
  let F_pc_r := nt_dir_pc && isReal
  let gp_right := select F_gppr gp_right ptr_upd
  let gp_left := select F_gppl gp_left ptr_upd
  let c_not_dir_pc := selectBits 31 F_ndpc_right 0 c_right
  let c_not_dir_pc := selectBits 31 F_ndpc_left c_not_dir_pc c_left
  let p_left := selectBits 31 F_ndpc_right p_left c_not_dir_pc
  let p_right := selectBits 31 F_ndpc_left p_right c_not_dir_pc
  let ptr_upd := selectBits 31 isReal c_not_dir_pc p_ptr
  let c_left := selectBits 31 F_pc_l c_left ptr_upd
  let c_right := selectBits 31 F_pc_r c_right ptr_upd
  (setAVLRightPtr (setAVLLeftPtr gp_pointers gp_left) gp_right,
    setAVLRightPtr (setAVLLeftPtr p_pointers p_left) p_right,
    setAVLRightPtr (setAVLLeftPtr c_pointers c_left) c_right)

/-- `updateBalanceIns`: the balance bits, the update of the parent's balance, and the imbalance. -/
def updateBalanceIns (bal_l bal_r bal_upd child_dir : Bool) : Bool × Bool × Bool × Bool :=
  let balanced := !(bal_l ^^ bal_r)
  let F_rs := child_dir && bal_upd
  let F_ls := !child_dir && bal_upd
  -- right shift; the four selections see the bits from before it
  let (imbalance, bal_r, balanced, bal_l) :=
    (select F_rs false bal_r, select F_rs bal_r balanced, select F_rs balanced bal_l,
      select F_rs bal_l false)
  -- left shift
  let (imbalance, bal_l, balanced, bal_r) :=
    (select F_ls imbalance bal_l, select F_ls bal_l balanced, select F_ls balanced bal_r,
      select F_ls bal_r false)
  let F_bu0 := bal_upd && balanced
  let bal_upd := select F_bu0 bal_upd false
  let bal_upd := select imbalance bal_upd false
  (bal_l, bal_r, bal_upd, imbalance)

/-- `updateBalanceDel`. -/
def updateBalanceDel (bal_l bal_r bal_upd child_dir : Bool) : Bool × Bool × Bool × Bool :=
  let balanced := !(bal_l ^^ bal_r)
  let F_ls := child_dir && bal_upd
  let F_rs := !child_dir && bal_upd
  -- left shift
  let (imbalance, bal_l, balanced, bal_r) :=
    (select F_ls false bal_l, select F_ls bal_l balanced, select F_ls balanced bal_r,
      select F_ls bal_r false)
  -- right shift
  let (imbalance, bal_r, _, bal_l) :=
    (select F_rs imbalance bal_r, select F_rs bal_r balanced, select F_rs balanced bal_l,
      select F_rs bal_l false)
  let LR_heavy := bal_l ^^ bal_r
  let bu0 := bal_upd && LR_heavy
  let bal_upd := select bu0 bal_upd false
  (bal_l, bal_r, bal_upd, imbalance)

/-! ## Insertion -/

/-- `avl_insert_return`. -/
structure InsertReturn where
  gp_node : Value
  p_node : Value
  c_node : Value
  dir_gpp : Bool
  dir_pc : Bool
  dir_cn : Bool
  imbalance : Bool

/-- An `avl_insert_return` as constructed. -/
def InsertReturn.init : InsertReturn := ⟨0, 0, 0, false, false, false, false⟩

/-- What the recursive `insert` returns: the update of the balance, the flag for the grandparent, the
node and the direction taken there. -/
structure InsertResult where
  bal_upd : Bool
  F_gp : Bool
  node : Value
  dir : Bool

/-- The way back of the recursive `insert`: the links of the node, and the two results. -/
def insertBack (ins_addr ptr pointers : Value) (lteq gt F_i : Bool) (res : InsertResult)
    (ret : InsertReturn) : Value × InsertResult × InsertReturn :=
  let left := getAVLLeftPtr pointers
  let right := getAVLRightPtr pointers
  let bal_upd := res.bal_upd || F_i
  let (new_bal_l, new_bal_r, new_bal_upd, imbalance) :=
    updateBalanceIns (getLeftBal pointers) (getRightBal pointers) bal_upd gt
  let pointers := setLeftBal pointers new_bal_l
  let pointers := setRightBal pointers new_bal_r
  let F_ir := F_i && gt
  let F_il := F_i && lteq
  let left := select F_il left ins_addr
  let right := select F_ir right ins_addr
  let pointers := setAVLLeftPtr pointers left
  let pointers := setAVLRightPtr pointers right
  (pointers, ⟨new_bal_upd, imbalance, ptr, gt⟩,
    { gp_node := selectBits 31 res.F_gp ret.gp_node ptr
      dir_gpp := select res.F_gp ret.dir_gpp gt
      p_node := selectBits 31 imbalance ret.p_node ptr
      dir_pc := select imbalance ret.dir_pc gt
      c_node := selectBits 31 imbalance ret.c_node res.node
      dir_cn := select imbalance ret.dir_cn res.dir
      imbalance := ret.imbalance ^^ imbalance })

/-- The recursive `insert`. -/
def insertRec (OPTIMIZED : Bool) (A : Shape oramSize) (width : Nat) (ins_addr insert_key : Value) :
    (TTL : Nat) → (ptr : Value) → (isDummy : Bool) → Nodes × InsertReturn →
      InsertResult × Nodes × InsertReturn
  | 0, _, _, (mem, ret) => (⟨false, false, 0, false⟩, mem, ret)
  | TTL + 1, ptr, isDummy, (mem, ret) =>
    let isReal := !isDummy
    let oidx : Index := ⟨ptr, width⟩
    let cnode := readNode OPTIMIZED A mem oidx ptr
    let old_pointers := cnode.pointers
    let (lteq, gt) := compareKeys cnode.key insert_key
    let left := getAVLLeftPtr cnode.pointers
    let right := getAVLRightPtr cnode.pointers
    let next_ptr := selectBits 31 gt left right
    let F_z := decide (next_ptr = 0)
    let F_i := isReal && F_z
    let isDummy := isDummy ^^ F_i
    let (res, mem, ret) :=
      insertRec OPTIMIZED A width ins_addr insert_key TTL next_ptr isDummy (mem, ret)
    let (pointers, res, ret) := insertBack ins_addr ptr cnode.pointers lteq gt F_i res ret
    (res, updatePointers OPTIMIZED A mem oidx ptr pointers old_pointers, ret)

/-- The links of the grandparent, the parent, the child and its next node. -/
structure FourPointers where
  gp : Value
  parent : Value
  child : Value
  n : Value

/-- The rotations and the balance bits at the end of `insert`. -/
def fixInsert (ret : InsertReturn) (F_gp : Bool) (n_node : Value) (w : FourPointers) : FourPointers :=
  let F_dr := ret.dir_pc ^^ ret.dir_cn
  let F_cn_rot := ret.imbalance && F_dr
  let n_l := getAVLLeftPtr w.n
  let n_r := getAVLRightPtr w.n
  let n_bal_l := getLeftBal w.n
  let n_bal_r := getRightBal w.n
  let (parent_pointers, child_pointers, n_pointers) :=
    rotate w.parent ret.c_node w.child n_node w.n ret.dir_pc ret.dir_cn F_cn_rot false
  let new_child_pointers := select F_cn_rot child_pointers n_pointers
  let new_child := selectBits 31 F_cn_rot ret.c_node n_node
  let (gp_pointers, parent_pointers, new_child_pointers) :=
    rotate w.gp ret.p_node parent_pointers new_child new_child_pointers ret.dir_gpp ret.dir_pc
      ret.imbalance F_gp
  let p_bal_l := getLeftBal parent_pointers
  let p_bal_r := getRightBal parent_pointers
  let child_pointers := select F_cn_rot new_child_pointers child_pointers
  let n_pointers := select F_cn_rot n_pointers new_child_pointers
  let c_bal_l := select ret.imbalance (getLeftBal child_pointers) false
  let c_bal_r := select ret.imbalance (getRightBal child_pointers) false
  let n_l0 := decide (n_l = 0)
  let n_r0 := decide (n_r = 0)
  let n_has_children := !(n_l0 && n_r0)
  let p_c_update := F_cn_rot && n_has_children
  let n_bal_ndpc := !(select ret.dir_pc n_bal_r n_bal_l)
  let n_bal_dpc := !(select ret.dir_pc n_bal_l n_bal_r)
  let p_bal_ndpc := select ret.dir_pc p_bal_r p_bal_l
  let p_bal_ndpc := select p_c_update p_bal_ndpc n_bal_ndpc
  let c_bal_dpc := select p_c_update false n_bal_dpc
  let p_bal_r := select ret.dir_pc p_bal_ndpc p_bal_r
  let p_bal_l := select ret.dir_pc p_bal_l p_bal_ndpc
  let c_bal_r := select ret.dir_pc c_bal_r c_bal_dpc
  let c_bal_l := select ret.dir_pc c_bal_dpc c_bal_l
  let n_bal_l := select F_cn_rot n_bal_l false
  let n_bal_r := select F_cn_rot n_bal_r false
  { gp := gp_pointers
    parent := setRightBal (setLeftBal parent_pointers p_bal_l) p_bal_r
    child := setRightBal (setLeftBal child_pointers c_bal_l) c_bal_r
    n := setRightBal (setLeftBal n_pointers n_bal_l) n_bal_r }

/-- The end of `insert`: the recursion, the fix of the imbalance and the new root. -/
def insertBelow (OPTIMIZED : Bool) (b : AVL oramSize) (TTL : Nat) (insert_address insert_key : Value) :
    AVL oramSize :=
  let A := flat oramSize b.curMaxIndex
  let width := width b.curMaxIndex
  let (res, mem, ret) :=
    insertRec OPTIMIZED A width insert_address insert_key TTL b.root false (b.oram, .init)
  let F_gp := res.F_gp
  let oidx_gp : Index := ⟨ret.gp_node, width⟩
  let oidx_p : Index := ⟨ret.p_node, width⟩
  let oidx_c : Index := ⟨ret.c_node, width⟩
  let gp_pointers := (readNode OPTIMIZED A mem oidx_gp ret.gp_node).pointers
  let parent_pointers := (readNode OPTIMIZED A mem oidx_p ret.p_node).pointers
  let child_pointers := (readNode OPTIMIZED A mem oidx_c ret.c_node).pointers
  let child_left := getAVLLeftPtr child_pointers
  let child_right := getAVLRightPtr child_pointers
  let n_node := selectBits 31 ret.dir_cn child_left child_right
  let oidx_n : Index := ⟨n_node, width⟩
  let n_pointers := (readNode OPTIMIZED A mem oidx_n n_node).pointers
  let old : FourPointers := ⟨gp_pointers, parent_pointers, child_pointers, n_pointers⟩
  let new := fixInsert ret F_gp n_node old
  let mem :=
    if OPTIMIZED then
      let mem := mem.addPointers A oidx_n (new.n ^^^ old.n)
      let mem := mem.addPointers A oidx_c (new.child ^^^ old.child)
      let mem := mem.addPointers A oidx_p (new.parent ^^^ old.parent)
      mem.addPointers A oidx_gp (new.gp ^^^ old.gp)
    else
      let mem := mem.writePointers A (A.index ret.c_node) new.child
      let mem := mem.writePointers A (A.index ret.p_node) new.parent
      let mem := mem.writePointers A (A.index ret.gp_node) new.gp
      mem.writePointers A (A.index n_node) new.n
  let F_dr := ret.dir_pc ^^ ret.dir_cn
  let F_ur := F_gp && ret.imbalance
  let temp_root := selectBits 31 F_ur b.root ret.c_node
  let F_ur := F_gp && F_dr
  let temp_root := selectBits 31 F_ur temp_root n_node
  { b with oram := mem, root := temp_root }

/-- `AVL::insert`.  An explicit access outside the memory is a failure. -/
def insert (OPTIMIZED : Bool) (b : AVL oramSize) (node : Node) : Option (AVL oramSize) :=
  if b.numItems = 0 then
    if 1 < oramSize then
      let A := (Shape.whole oramSize).val
      let oram := b.oram.set A 0 0
      let oram := oram.set A 1 node
      some { b with oram, root := 1, numItems := 1, curMaxIndex := b.curMaxIndex + 1 }
    else none
  else
    let numItems := b.numItems + 1
    let TTL := AVL_TTL numItems
    match b.emptyLocations with
    | insert_address :: emptyLocations =>
      let A := flat oramSize b.curMaxIndex
      let oram := b.oram.write A (A.index insert_address) node
      some (insertBelow OPTIMIZED { b with oram, numItems, emptyLocations } TTL insert_address node.key)
    | [] =>
      let curMaxIndex := b.curMaxIndex + 1
      let A := flat oramSize curMaxIndex
      let new_id := numItems
      if new_id < oramSize then
        let oram := b.oram.set A new_id node
        some (insertBelow OPTIMIZED { b with oram, numItems, curMaxIndex } TTL
          (BitVec.ofNat 64 new_id) node.key)
      else none

/-! ## Lookup -/

/-- The recursive `lookup`: whether the key was found, and the node returned through `ret_node`. -/
def lookupRec (oramSize : Nat) (mem : Nodes) (key : Value) :
    (TTL : Nat) → (ptr : Value) → (isDummy : Bool) → (ret_node : Node) → Bool × Node
  | 0, _, isDummy, ret_node => (isDummy, ret_node)
  | TTL + 1, ptr, isDummy, ret_node =>
    let A := (Shape.whole oramSize).val
    let isNotDummy := !isDummy
    let cnode := mem.read A (A.index ptr)
    let (_, eq, gt) := signedCompare (key - cnode.key)
    let left := getAVLLeftPtr cnode.pointers
    let right := getAVLRightPtr cnode.pointers
    let next_ptr := selectBits 32 gt left right
    -- the coroutines of the two selections hold `F_found` as it was constructed
    let F_found := false
    let ret_node := { ret_node with
      key := select F_found ret_node.key cnode.key
      value := select F_found ret_node.value cnode.value }
    let F_found := isNotDummy && eq
    lookupRec oramSize mem key TTL next_ptr (isDummy ^^ F_found) ret_node

/-- `AVL::lookup`. -/
def lookup (b : AVL oramSize) (key : Value) (ret_node : Node) : Bool × Node :=
  lookupRec oramSize b.oram key b.numItems b.root false ret_node

/-! ## Deletion -/

/-- `avl_del_return`. -/
structure DelReturn where
  F_ss : Bool
  N_d : Value
  N_s : Value
  F_r : Bool
  ret_ptr : Value

/-- An `avl_del_return` as constructed. -/
def DelReturn.init : DelReturn := ⟨false, 0, 0, false, 0⟩

/-- `updateChildPointers`. -/
def updateChildPointers (left right : Value) (c_prime : Bool) (ret_struct : DelReturn) : Value × Value :=
  let F_rr := c_prime && ret_struct.F_r
  let F_rl := !c_prime && ret_struct.F_r
  (select F_rl left ret_struct.ret_ptr, select F_rr right ret_struct.ret_ptr)

/-- The links of the node, of its child's sibling and of the sibling's child. -/
structure ThreePointers where
  node : Value
  cs : Value
  gcs : Value

/-- The grandchild that `fixImbalance` looks at. -/
def gcsPtr (c_prime imb : Bool) (cs_pointers : Value) : Value :=
  let cs_left := getAVLLeftPtr cs_pointers
  let cs_right := getAVLRightPtr cs_pointers
  let ndpc_is_l := imb && c_prime
  let dpc_is_r := imb && c_prime
  let cs_bal_dpc := select dpc_is_r (getLeftBal cs_pointers) (getRightBal cs_pointers)
  let cs_dpc := select dpc_is_r cs_left cs_right
  let cs_ndpc := select ndpc_is_l cs_right cs_left
  selectBits 31 cs_bal_dpc cs_ndpc cs_dpc

/-- The rotations and the balance bits of `fixImbalance`: the links, the pointer to the new root of the
subtree, and `bal_upd`.  `p_bal_dpc` and its subcase `IC3_S1` are computed and never written back. -/
def fixBalance (ptr cs_ptr gcs_ptr : Value) (new_p_bal_l new_p_bal_r bal_upd c_prime imb : Bool)
    (w : ThreePointers) : ThreePointers × Value × Bool :=
  let not_c_prime := !c_prime
  let cs_bal_l := getLeftBal w.cs
  let cs_bal_r := getRightBal w.cs
  let ndpc_is_l := imb && c_prime
  let ndpc_is_r := imb && not_c_prime
  let dpc_is_l := imb && not_c_prime
  let dpc_is_r := imb && c_prime
  let cs_bal_dpc := select dpc_is_r cs_bal_l cs_bal_r
  let cs_bal_ndpc := select ndpc_is_l cs_bal_r cs_bal_l
  let p_bal_ndpc := select ndpc_is_r new_p_bal_l new_p_bal_r
  let F_dr := imb && cs_bal_dpc
  let gcs_bal_l := getLeftBal w.gcs
  let gcs_bal_r := getRightBal w.gcs
  let gcs_bal_dpc := select dpc_is_r gcs_bal_l gcs_bal_r
  let (nodeptrs, cs_pointers, gcs_pointers) :=
    rotate w.node cs_ptr w.cs gcs_ptr w.gcs not_c_prime c_prime F_dr false
  let new_cs_pointers := select F_dr cs_pointers gcs_pointers
  let new_cs := selectBits 31 F_dr cs_ptr gcs_ptr
  let new_ptr := select F_dr cs_ptr gcs_ptr
  let (_, nodeptrs, new_cs_pointers) :=
    rotate 0 ptr nodeptrs new_cs new_cs_pointers false not_c_prime imb true
  let cs_pointers := select F_dr new_cs_pointers cs_pointers
  let gcs_pointers := select F_dr gcs_pointers new_cs_pointers
  let cs_zero_bal := !(cs_bal_dpc ^^ cs_bal_ndpc)
  let IC1 := imb && cs_bal_ndpc
  let IC2 := imb && cs_zero_bal
  let IC3 := imb && cs_bal_dpc
  let IC3_S2 := IC3 && gcs_bal_dpc
  let cs_bal_ndpc := select IC1 cs_bal_ndpc false
  let cs_bal_dpc := select IC2 cs_bal_dpc true
  let p_bal_ndpc := select IC2 p_bal_ndpc true
  let bal_upd := select IC2 bal_upd false
  let cs_bal_dpc := select IC3 cs_bal_dpc false
  let cs_bal_ndpc := select IC3_S2 cs_bal_ndpc true
  let gcs_bal_dpc := select IC3_S2 gcs_bal_dpc false
  let gcs_bal_r := select dpc_is_r gcs_bal_r gcs_bal_dpc
  let gcs_bal_l := select dpc_is_l gcs_bal_l gcs_bal_dpc
  let cs_bal_r := select dpc_is_r cs_bal_r cs_bal_dpc
  let cs_bal_l := select dpc_is_l cs_bal_l cs_bal_dpc
  let new_p_bal_r := select ndpc_is_r new_p_bal_r p_bal_ndpc
  let new_p_bal_l := select ndpc_is_l new_p_bal_l p_bal_ndpc
  let cs_bal_r := select ndpc_is_r cs_bal_r cs_bal_ndpc
  let cs_bal_l := select ndpc_is_l cs_bal_l cs_bal_ndpc
  ({ node := setRightBal (setLeftBal nodeptrs new_p_bal_l) new_p_bal_r
     cs := setRightBal (setLeftBal cs_pointers cs_bal_l) cs_bal_r
     gcs := setRightBal (setLeftBal gcs_pointers gcs_bal_l) gcs_bal_r },
    new_ptr, bal_upd)

/-- `fixImbalance`: the memory, `bal_upd`, `F_ri` and the return structure. -/
def fixImbalance (OPTIMIZED : Bool) (A : Shape oramSize) (width : Nat) (mem : Nodes) (oidx : Index)
    (oidx_oldptrs ptr nodeptrs : Value) (new_p_bal_l new_p_bal_r bal_upd c_prime : Bool) (cs_ptr : Value)
    (imb : Bool) (ret_struct : DelReturn) : Nodes × Bool × Bool × DelReturn :=
  let oidx_cs : Index := ⟨cs_ptr, width⟩
  let cs_pointers := (readNode OPTIMIZED A mem oidx_cs cs_ptr).pointers
  let gcs_ptr := gcsPtr c_prime imb cs_pointers
  let oidx_gcs : Index := ⟨gcs_ptr, width⟩
  let gcs_pointers := (readNode OPTIMIZED A mem oidx_gcs gcs_ptr).pointers
  let (new, new_ptr, bal_upd) :=
    fixBalance ptr cs_ptr gcs_ptr new_p_bal_l new_p_bal_r bal_upd c_prime imb
      ⟨nodeptrs, cs_pointers, gcs_pointers⟩
  let F_ri := imb
  let ret_struct := { ret_struct with ret_ptr := select imb ret_struct.ret_ptr new_ptr }
  let mem := updatePointers OPTIMIZED A mem oidx_cs cs_ptr new.cs cs_pointers
  let mem := updatePointers OPTIMIZED A mem oidx_gcs gcs_ptr new.gcs gcs_pointers
  let mem := updatePointers OPTIMIZED A mem oidx ptr new.node oidx_oldptrs
  (mem, bal_upd, F_ri, ret_struct)

/-- `updateRetStruct`: `bal_upd` and the return structure. -/
def updateRetStruct (ptr : Value) (F_rs F_ri bal_upd : Bool) (ret_struct : DelReturn) : Bool × DelReturn :=
  let F_nr := F_rs || F_ri
  let ret_struct := { ret_struct with F_r := F_nr }
  let F_nr := !F_nr
  (select F_rs bal_upd true, { ret_struct with ret_ptr := select F_nr ret_struct.ret_ptr ptr })

/-- What a node decides on the way down of the recursive `del`: the flags `F_dh`, `F_rs`, `F_c2` and
`F_sf`, the direction `c_prime`, and the flags passed on. -/
structure DelFlags where
  F_dh : Bool
  F_rs : Bool
  F_c2 : Bool
  F_sf : Bool
  c_prime : Bool
  found_prime : Bool
  find_successor_prime : Bool

/-- The flags, from the node and the comparison of its key. -/
def delFlags (l0 r0 eq gt found find_successor : Bool) : DelFlags :=
  let c := gt
  let lf := eq
  let not_found := !found
  let F_1 := l0 ^^ r0
  let F_0 := l0 && r0
  let F_c1 := lf && F_1
  let F_dh := not_found && lf
  let F_n2 := F_0 ^^ F_1
  let F_2 := !F_n2
  let c_prime := select F_c1 c l0
  let F_c2 := lf && F_2
  let F_rs := F_dh && F_n2
  let c_prime := select F_c2 c_prime true
  let F_c3 := find_successor && F_2
  let c_prime := select F_c3 c_prime false
  let F_c4 := find_successor && l0
  let F_sf := F_c4
  let c_prime := select F_c4 c_prime l0
  let F_rs := F_rs || F_sf
  { F_dh, F_rs, F_c2, F_sf, c_prime
    found_prime := found || lf
    find_successor_prime := (find_successor || F_c2) ^^ F_c4 }

/-- The recursive `del`: whether the key was found, and `bal_upd`. -/
def delRec (OPTIMIZED : Bool) (A : Shape oramSize) (width : Nat) (del_key : Value) :
    (TTL : Nat) → (ptr : Value) → (found find_successor : Bool) → Nodes × DelReturn →
      (Bool × Bool) × Nodes × DelReturn
  | 0, _, found, _, (mem, ret_struct) => ((found, false), mem, ret_struct)
  | TTL + 1, ptr, found, find_successor, (mem, ret_struct) =>
    let oidx : Index := ⟨ptr, width⟩
    let node := readNode OPTIMIZED A mem oidx ptr
    let oldptrs := node.pointers
    let left := getAVLLeftPtr node.pointers
    let right := getAVLRightPtr node.pointers
    let l0 := decide (left = 0)
    let r0 := decide (right = 0)
    let (_, eq, gt) := signedCompare (del_key - node.key)
    let F := delFlags l0 r0 eq gt found find_successor
    let ret_struct := { ret_struct with
      F_ss := ret_struct.F_ss || F.F_c2
      N_d := select F.F_dh ret_struct.N_d ptr
      N_s := select F.F_sf ret_struct.N_s ptr }
    let next_ptr := selectBits 31 F.c_prime left right
    let cs_ptr := selectBits 31 F.c_prime right left
    match delRec OPTIMIZED A width del_key TTL next_ptr F.found_prime F.find_successor_prime
        (mem, ret_struct) with
    | ((false, _), mem, ret_struct) => ((false, false), mem, ret_struct)
    | ((true, bal_upd), mem, ret_struct) =>
      let (left, right) := updateChildPointers left right F.c_prime ret_struct
      let pointers := setAVLLeftPtr node.pointers left
      let pointers := setAVLRightPtr pointers right
      let ret_struct := { ret_struct with F_r := false }
      let (new_p_bal_l, new_p_bal_r, bal_upd, imb) :=
        updateBalanceDel (getLeftBal pointers) (getRightBal pointers) bal_upd F.c_prime
      let (mem, bal_upd, F_ri, ret_struct) :=
        fixImbalance OPTIMIZED A width mem oidx oldptrs ptr pointers new_p_bal_l new_p_bal_r bal_upd
          F.c_prime cs_ptr imb ret_struct
      let (bal_upd, ret_struct) := updateRetStruct ptr F.F_rs F_ri bal_upd ret_struct
      ((true, bal_upd), mem, ret_struct)

/-- `AVL::del`. -/
def del (OPTIMIZED : Bool) (b : AVL oramSize) (del_key : Value) : Bool × AVL oramSize :=
  let A := flat oramSize b.curMaxIndex
  let width := width b.curMaxIndex
  if b.numItems = 0 then (false, b)
  else if b.numItems = 1 then
    let oidx : Index := ⟨b.root, width⟩
    let node := b.oram.read A oidx
    let (_, eq, _) := signedCompare (del_key - node.key)
    if eq then
      (true, { b with
        oram := b.oram.write A oidx 0
        numItems := 0
        emptyLocations := b.root :: b.emptyLocations })
    else (false, b)
  else
    match delRec OPTIMIZED A width del_key (AVL_TTL b.numItems) b.root false false (b.oram, .init) with
    | ((false, _), mem, _) => (false, { b with oram := mem })
    | ((true, _), mem, ret_struct) =>
      let oidx_nd : Index := ⟨ret_struct.N_d, width⟩
      let oidx_ns : Index := ⟨ret_struct.N_s, width⟩
      let old_del_node := readNode OPTIMIZED A mem oidx_nd ret_struct.N_d
      let suc_node := readNode OPTIMIZED A mem oidx_ns ret_struct.N_s
      let root := select ret_struct.F_r b.root ret_struct.ret_ptr
      let key := select ret_struct.F_ss old_del_node.key suc_node.key
      let value := select ret_struct.F_ss old_del_node.value suc_node.value
      let empty_loc := select ret_struct.F_ss ret_struct.N_d ret_struct.N_s
      let mem :=
        if OPTIMIZED then
          let mem := mem.addKey A oidx_nd (key - old_del_node.key)
          let mem := mem.addValue A oidx_nd (value ^^^ old_del_node.value)
          let mem := mem.addKey A oidx_ns (-suc_node.key)
          mem.addValue A oidx_ns suc_node.value
        else
          let mem := mem.writeKey A (A.index ret_struct.N_d) key
          let mem := mem.writeValue A (A.index ret_struct.N_d) value
          let mem := mem.writeKey A (A.index ret_struct.N_s) 0
          mem.writeValue A (A.index ret_struct.N_s) 0
      (true, { oram := mem, root := root, numItems := b.numItems - 1, curMaxIndex := b.curMaxIndex,
               emptyLocations := empty_loc :: b.emptyLocations })

/-! ## The check -/

/-- The recursive `check_avl` on the reconstructed nodes `R`: whether the keys are in order, the subtrees
balanced and the balance bits correct, and the height.  The recursion does not end on a cycle. -/
def checkAvl (oramSize : Nat) (R : Nodes) :
    (fuel : Nat) → (node min_key max_key : Value) → Option (Bool × Bool × Bool × Nat)
  | 0, _, _, _ => none
  | fuel + 1, node, min_key, max_key =>
    if node = 0 then some (true, true, true, 0)
    else if node.toNat < oramSize then
      let n := R.holds node.toNat
      let key := n.key
      let left_ptr := getAVLLeftPtr n.pointers
      let right_ptr := getAVLRightPtr n.pointers
      match checkAvl oramSize R fuel left_ptr min_key key,
        checkAvl oramSize R fuel right_ptr key max_key with
      | some (leftok, leftavlok, leftbbok, leftheight),
          some (rightok, rightavlok, rightbbok, rightheight) =>
        let height := max leftheight rightheight + 1
        let heightgap : Int := leftheight - rightheight
        let leftbal := getLeftBal n.pointers
        let rightbal := getRightBal n.pointers
        let avlok := decide (heightgap.natAbs < 2)
        let bb_ok :=
          if heightgap = -1 then rightbal && !leftbal
          else if heightgap = 1 then leftbal && !rightbal
          else if heightgap = 0 then !rightbal && !leftbal
          else false
        some (leftok && rightok && decide (min_key ≤ key) && decide (key ≤ max_key),
          avlok && leftavlok && rightavlok, bb_ok && leftbbok && rightbbok, height)
      | _, _ => none
    else none

/-- `check_avl` accepts the tree. -/
def Accepted (b : AVL oramSize) : Prop :=
  ∃ fuel height, checkAvl oramSize b.oram fuel b.root 0 (~~~0) = some (true, true, true, height)

end AVL

end Prac
