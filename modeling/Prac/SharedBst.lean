import Prac.SharedNodes

/-!
# The binary search tree on shares (`bst.cpp`)

`BST` as the three parties run it, with what they draw at random as arguments.

* `Shared.BST.insert`, `Shared.BST.lookup`, `Shared.BST.del` — the operations.
* `Shared.BST.Represents` — the shares stand for a tree in the clear.
* `insert_represents`, `lookup_represents`, `del_represents` — where the operation in the clear succeeds, the one
  on shares does too, and represents its result.
-/

namespace Prac

open Prac.BST (flat)

namespace Shared

/-- `BST`.  The end of `empty_locations` is the head of the list. -/
structure BST (oramSize : Nat) where
  oram : WideState NodeField.Reg
  root : Player → RegXS
  numItems : Nat
  emptyLocations : List (Player → RegXS)

namespace BST

variable {oramSize : Nat}

/-- The constructor. -/
def init : BST oramSize := ⟨WideState.create, fun _ => ⟨0⟩, 0, []⟩

/-- `oram.flat(tio, yield)`, as the shape of accesses. -/
abbrev via (oramSize : Nat) : Via oramSize := .sub (flat oramSize)

/-- A public word, as a share of P1. -/
def constant (v : Value) (p : Player) : RegXS := ⟨if p.bit then v else 0⟩

/-- A selection triple of words, and what the buffers hold before the peer's bytes arrive. -/
structure SelectCoins where
  triple : ValSelectTriple
  junk : Player → Value

/-- `mpc_select` of XOR shares. -/
def selectXS (nbits : Nat) (coins : SelectCoins) (f : Player → RegBS) (x y : Player → RegXS) : Player → RegXS :=
  mpcSelectXS nbits coins.triple coins.junk f x y

/-! ## Insertion -/

/-- `compare_keys`: go left, go right. -/
def compareKeys (tio : MPCTIO 1) (coins : CdpfCoins) (k1 k2 : Player → RegAS) :
    (Player → RegBS) × (Player → RegBS) :=
  let cmp := compareWith tio.prg.node coins fun p => k2 p - k1 p
  (xorShare (fun p => (cmp p).1) fun p => (cmp p).2.1, fun p => (cmp p).2.2)

/-- What the parties draw for a level of the recursive `insert`. -/
structure InsertLevel where
  node : WideCoins NodeField.Reg
  keys : CdpfCoins
  next : SelectCoins
  zero : CdpfCoins
  F_i : BitSelectTriple
  ret_ptr : SelectCoins
  ret_direction : BitSelectTriple

/-- The recursive `insert`; the levels are numbered by what is left of them. -/
def insertRec (tio : MPCTIO 1) (oramSize : Nat) (insertion_key : Player → RegAS) (coins : Nat → InsertLevel) :
    (TTL : Nat) → (ptr : Player → RegXS) → (isDummy : Player → RegBS) → WideState NodeField.Reg →
      Option ((Player → RegXS) × (Player → RegBS) × WideState NodeField.Reg)
  | 0, ptr, _, s => some (ptr, fun _ => ⟨false⟩, s)
  | TTL + 1, ptr, isDummy, s => do
    let isNotDummy := notShare isDummy
    let (cnode, s) ← WideState.read tio s (via oramSize) ptr (coins TTL).node
    let (_, gt) := compareKeys tio (coins TTL).keys (cnode .key) insertion_key
    let left := mapShare extractLeftPtr (cnode .pointers)
    let right := mapShare extractRightPtr (cnode .pointers)
    let next_ptr := selectXS 32 (coins TTL).next gt left right
    let F_z := isZeroWith tio.prg.node (coins TTL).zero next_ptr
    let F_i := mpcAnd (coins TTL).F_i isNotDummy F_z
    let isDummy := xorShare isDummy F_i
    let (wptr, direction, s) ← insertRec tio oramSize insertion_key coins TTL next_ptr isDummy s
    let ret_ptr := selectXS 64 (coins TTL).ret_ptr F_i wptr ptr
    let ret_direction := xorShare (mpcAnd (coins TTL).ret_direction F_i (xorShare direction gt)) direction
    some (ret_ptr, ret_direction, s)

/-- What the parties draw for `insert`. -/
structure InsertCoins where
  blind : ∀ f : NodeField, Player → f.Reg
  old : WideCoins NodeField.Reg
  node : ∀ f : NodeField, AccessCoins f.Reg
  level : Nat → InsertLevel
  read : WideCoins NodeField.Reg
  right : SelectCoins
  left : SelectCoins
  write : WideCoins NodeField.Reg

/-- The end of `insert`: the recursion, and the link to the new node. -/
def link (tio : MPCTIO 1) (b : BST oramSize) (TTL : Nat) (insert_address : Player → RegXS) (key : Player → RegAS)
    (coins : InsertCoins) : Option (BST oramSize) := do
  let (wptr, direction, s) ← insertRec tio oramSize key coins.level TTL b.root (fun _ => ⟨false⟩) b.oram
  let (pointers, s) ← WideState.readField tio s (via oramSize) wptr .pointers coins.read
  let left_ptr := mapShare extractLeftPtr pointers
  let right_ptr := mapShare extractRightPtr pointers
  let not_direction := notShare direction
  let new_right_ptr := selectXS 64 coins.right direction right_ptr insert_address
  let new_left_ptr := selectXS 64 coins.left not_direction left_ptr insert_address
  let pointers := mapShare2 setLeftPtr pointers new_left_ptr
  let pointers := mapShare2 setRightPtr pointers new_right_ptr
  let s ← WideState.writeField tio s (via oramSize) wptr .pointers pointers coins.write
  some { b with oram := s }

/-- `BST::insert`. -/
def insert (tio : MPCTIO 1) (b : BST oramSize) (node : ∀ f : NodeField, Player → f.Reg) (coins : InsertCoins) :
    Option (BST oramSize) :=
  if b.numItems = 0 then
    if 1 < oramSize then
      some { b with oram := b.oram.explWrite (via oramSize) 1 node coins.blind, root := constant 1, numItems := 1 }
    else none
  else
    let TTL := b.numItems
    let numItems := b.numItems + 1
    match b.emptyLocations with
    | insert_address :: emptyLocations => do
      let s ← WideState.write tio b.oram (via oramSize) insert_address node coins.old coins.node
      link tio { b with oram := s, numItems, emptyLocations } TTL insert_address (node .key) coins
    | [] =>
      let new_id := 1 + numItems
      if new_id < oramSize then
        let s := b.oram.explWrite (via oramSize) new_id node coins.blind
        link tio { b with oram := s, numItems } TTL (constant (BitVec.ofNat 64 new_id)) (node .key) coins
      else none

/-! ## Lookup -/

/-- What the parties draw for a level of the recursive `lookup`. -/
structure LookupLevel where
  node : WideCoins NodeField.Reg
  cdpf : CdpfCoins
  next : SelectCoins
  F_found : BitSelectTriple
  key : MultTriple
  value : SelectCoins
  isDummy : BitSelectTriple

/-- The recursive `lookup`: whether the key was found, and the node returned through `ret_node`. -/
def lookupRec (tio : MPCTIO 1) (oramSize : Nat) (key : Player → RegAS) (coins : Nat → LookupLevel) :
    (TTL : Nat) → (ptr : Player → RegXS) → (isDummy : Player → RegBS) →
      (ret_node : ∀ f : NodeField, Player → f.Reg) → WideState NodeField.Reg →
      Option ((Player → RegBS) × (∀ f : NodeField, Player → f.Reg) × WideState NodeField.Reg)
  | 0, _, isDummy, ret_node, s => some (isDummy, ret_node, s)
  | TTL + 1, ptr, isDummy, ret_node, s => do
    let (cnode, s) ← WideState.read tio s (via oramSize) ptr (coins TTL).node
    let cmp := compareWith tio.prg.node (coins TTL).cdpf fun p => key p - cnode .key p
    let eq p := (cmp p).2.1
    let gt p := (cmp p).2.2
    let left := mapShare extractLeftPtr (cnode .pointers)
    let right := mapShare extractRightPtr (cnode .pointers)
    let next_ptr := selectXS 32 (coins TTL).next gt left right
    let _F_found := mpcAnd (coins TTL).F_found (notShare isDummy) eq
    let ret_node := nodeShares (mpcSelect 64 (coins TTL).key eq (ret_node .key) (cnode .key)) (ret_node .pointers)
      (selectXS 64 (coins TTL).value eq (ret_node .value) (cnode .value))
    let isDummy := mpcOr (coins TTL).isDummy isDummy eq
    lookupRec tio oramSize key coins TTL next_ptr isDummy ret_node s

/-- `BST::lookup`. -/
def lookup (tio : MPCTIO 1) (b : BST oramSize) (key : Player → RegAS) (ret_node : ∀ f : NodeField, Player → f.Reg)
    (coins : Nat → LookupLevel) :
    Option (((Player → RegBS) × (∀ f : NodeField, Player → f.Reg)) × BST oramSize) := do
  let (found, ret_node, s) ←
    lookupRec tio oramSize key coins b.numItems b.root (fun _ => ⟨false⟩) ret_node b.oram
  some ((found, ret_node), { b with oram := s })

/-! ## Deletion -/

/-- `del_return`. -/
structure DelReturn where
  F_ss : Player → RegBS
  N_d : Player → RegXS
  N_s : Player → RegXS
  F_r : Player → RegBS
  ret_ptr : Player → RegXS

/-- A `del_return` as constructed. -/
def DelReturn.init : DelReturn :=
  ⟨fun _ => ⟨false⟩, fun _ => ⟨0⟩, fun _ => ⟨0⟩, fun _ => ⟨false⟩, fun _ => ⟨0⟩⟩

/-- What the parties draw for a level of the recursive `del`: a CDPF for its three comparisons, and the triples in
the order of their uses. -/
structure DelLevel where
  node : WideCoins NodeField.Reg
  cdpf : CdpfCoins
  bit : Nat → BitSelectTriple
  word : Nat → SelectCoins
  write : WideCoins NodeField.Reg

/-- The flags of a level on the way down: `c_prime`, `F_c2`, `F_c4` and `F_2`. -/
def delFlags (bit : Nat → BitSelectTriple) (l0 r0 c lf fs : Player → RegBS) :
    (Player → RegBS) × (Player → RegBS) × (Player → RegBS) × (Player → RegBS) :=
  let s1 p : RegBS := ⟨p.bit⟩
  let s0 (_ : Player) : RegBS := ⟨false⟩
  let F_1 := xorShare l0 r0
  let F_c1 := mpcAnd (bit 0) lf F_1
  let F_0 := mpcAnd (bit 1) l0 r0
  let F_2 := notShare (xorShare F_0 F_1)
  let c_prime := mpcSelectBS (bit 2) F_c1 c l0
  let F_c2 := mpcAnd (bit 3) lf F_2
  let c_prime := mpcSelectBS (bit 4) F_c2 c_prime s1
  let F_c3 := mpcAnd (bit 5) fs F_2
  let c_prime := mpcSelectBS (bit 6) F_c3 c_prime s0
  let F_c4 := mpcAnd (bit 7) fs l0
  let c_prime := mpcSelectBS (bit 8) F_c4 c_prime l0
  (c_prime, F_c2, F_c4, F_2)

/-- The return structure on the way back. -/
def delReturn (bit : Nat → BitSelectTriple) (word : Nat → SelectCoins) (ptr : Player → RegXS)
    (lf af F_2 F_c2 F_c4 : Player → RegBS) (ret : DelReturn) : DelReturn :=
  let F_ns := F_c4
  let F_ss := mpcOr (bit 13) ret.F_ss F_c2
  let F_nd := mpcAnd (bit 14) lf (notShare af)
  let F_r := mpcAnd (bit 15) F_nd (notShare F_2)
  let F_r := mpcOr (bit 16) F_r F_ns
  { F_ss
    N_d := selectXS 64 (word 3) F_nd ret.N_d ptr
    N_s := selectXS 64 (word 4) F_ns ret.N_s ptr
    F_r
    ret_ptr := selectXS 64 (word 5) F_r ptr ret.ret_ptr }

/-- The recursive `del`, which opens the flag `af` at its end. -/
def delRec (tio : MPCTIO 1) (oramSize : Nat) (del_key : Player → RegAS) (coins : Nat → DelLevel) :
    (TTL : Nat) → (ptr : Player → RegXS) → (af fs : Player → RegBS) → WideState NodeField.Reg × DelReturn →
      Option (Bool × WideState NodeField.Reg × DelReturn)
  | 0, _, af, _, (s, ret) => some (reveal af, s, { ret with F_r := notShare ret.F_r })
  | TTL + 1, ptr, af, fs, (s, ret) => do
    let (node, s) ← WideState.read tio s (via oramSize) ptr (coins TTL).node
    let left := mapShare extractLeftPtr (node .pointers)
    let right := mapShare extractRightPtr (node .pointers)
    let l0 := isZeroWith tio.prg.node (coins TTL).cdpf left
    let r0 := isZeroWith tio.prg.node (coins TTL).cdpf right
    let cmp := compareWith tio.prg.node (coins TTL).cdpf fun p => del_key p - node .key p
    let lf p := (cmp p).2.1
    let c p := (cmp p).2.2
    let (c_prime, F_c2, F_c4, F_2) := delFlags (coins TTL).bit l0 r0 c lf fs
    let next_ptr := selectXS 32 ((coins TTL).word 0) c_prime left right
    let af_prime := mpcOr ((coins TTL).bit 9) af lf
    let fs_prime := xorShare (mpcOr ((coins TTL).bit 10) fs F_c2) F_c4
    let (key_found, s, ret) ← delRec tio oramSize del_key coins TTL next_ptr af_prime fs_prime (s, ret)
    if !key_found then some (false, s, ret)
    else
      let F_rs_right := mpcAnd ((coins TTL).bit 11) c_prime ret.F_r
      let F_rs_left := mpcAnd ((coins TTL).bit 12) (notShare c_prime) ret.F_r
      let right := selectXS 64 ((coins TTL).word 1) F_rs_right right ret.ret_ptr
      let left := selectXS 64 ((coins TTL).word 2) F_rs_left left ret.ret_ptr
      let new_ptr := mapShare2 setLeftPtr (fun _ => ⟨0⟩) left
      let new_ptr := mapShare2 setRightPtr new_ptr right
      let s ← WideState.writeField tio s (via oramSize) ptr .pointers new_ptr (coins TTL).write
      some (true, s, delReturn (coins TTL).bit (coins TTL).word ptr lf af F_2 F_c2 F_c4 ret)

/-- What the parties draw for `del`. -/
structure DelCoins where
  old : WideCoins NodeField.Reg
  zero : ∀ f : NodeField, AccessCoins f.Reg
  level : Nat → DelLevel
  del_node : WideCoins NodeField.Reg
  suc_node : WideCoins NodeField.Reg
  root : SelectCoins
  key : MultTriple
  value : SelectCoins
  empty_loc : SelectCoins
  write : Fin 4 → WideCoins NodeField.Reg

/-- `BST::del`.  The four assignments at the end are made one after another. -/
def del (tio : MPCTIO 1) (b : BST oramSize) (del_key : Player → RegAS) (coins : DelCoins) :
    Option (Bool × BST oramSize) :=
  if b.numItems = 0 then some (false, b)
  else if b.numItems = 1 then do
    let zero := nodeShares (fun _ => ⟨0⟩) (fun _ => ⟨0⟩) fun _ => ⟨0⟩
    let s ← WideState.write tio b.oram (via oramSize) b.root zero coins.old coins.zero
    some (true, { b with oram := s, numItems := 0, emptyLocations := b.root :: b.emptyLocations })
  else do
    let (success, s, ret) ← delRec tio oramSize del_key coins.level b.numItems b.root (fun _ => ⟨false⟩)
      (fun _ => ⟨false⟩) (b.oram, .init)
    if !success then some (false, { b with oram := s })
    else
      let (del_node, s) ← WideState.read tio s (via oramSize) ret.N_d coins.del_node
      let (suc_node, s) ← WideState.read tio s (via oramSize) ret.N_s coins.suc_node
      let root := selectXS 64 coins.root ret.F_r b.root ret.ret_ptr
      let key := mpcSelect 64 coins.key ret.F_ss (del_node .key) (suc_node .key)
      let value := selectXS 64 coins.value ret.F_ss (del_node .value) (suc_node .value)
      let empty_loc := selectXS 64 coins.empty_loc ret.F_ss ret.N_d ret.N_s
      let s ← WideState.writeField tio s (via oramSize) ret.N_d .key key (coins.write 0)
      let s ← WideState.writeField tio s (via oramSize) ret.N_d .value value (coins.write 1)
      let s ← WideState.writeField tio s (via oramSize) ret.N_s .key (fun _ => ⟨0⟩) (coins.write 2)
      let s ← WideState.writeField tio s (via oramSize) ret.N_s .value (fun _ => ⟨0⟩) (coins.write 3)
      some (true, { oram := s, root := root, numItems := b.numItems - 1,
                    emptyLocations := empty_loc :: b.emptyLocations })

/-! ## The tree in the clear -/

/-- The shares stand for a tree in the clear. -/
structure Represents (b : BST oramSize) (ideal : Prac.BST oramSize) : Prop where
  oram : b.oram.Holds oramSize ideal.oram.array
  root : reveal b.root = ideal.root
  numItems : b.numItems = ideal.numItems
  emptyLocations : b.emptyLocations.map reveal = ideal.emptyLocations

@[simp] theorem reveal_selectXS64 (coins : SelectCoins) (f : Player → RegBS) (x y : Player → RegXS) :
    reveal (selectXS 64 coins f x y) = select (reveal f) (reveal x) (reveal y) :=
  Prac.reveal_selectXS f coins.triple coins.junk x y

@[simp] theorem reveal_selectXS32 (coins : SelectCoins) (f : Player → RegBS) (x y : Player → RegXS) :
    reveal (selectXS 32 coins f x y) = selectBits 32 (reveal f) (reveal x) (reveal y) :=
  reveal_selectBits coins.triple coins.junk f x y

@[simp] theorem reveal_falseShare : reveal (fun _ => (⟨false⟩ : RegBS)) = false := rfl

@[simp] theorem reveal_zeroShare : reveal (fun _ => (⟨0⟩ : RegXS)) = 0 := LawfulXor.xor_self (0 : Value)

theorem reveal_constant (v : Value) : reveal (constant v) = v := BitVec.zero_xor

theorem reveal_compareKeys (tio : MPCTIO 1) (coins : CdpfCoins) (k1 k2 : Player → RegAS) :
    (reveal (compareKeys tio coins k1 k2).1, reveal (compareKeys tio coins k1 k2).2) =
      Prac.compareKeys (reveal k1) (reveal k2) := by
  simp only [compareKeys, Prac.compareKeys, reveal_xorShare, reveal_lt, reveal_eq, reveal_gt, reveal_sub]

/-- The return structure behind shares. -/
def revealReturn (ret : DelReturn) : Prac.BST.DelReturn :=
  ⟨reveal ret.F_ss, reveal ret.N_d, reveal ret.N_s, reveal ret.F_r, reveal ret.ret_ptr⟩

theorem reveal_delFlags (bit : Nat → BitSelectTriple) (l0 r0 c lf fs : Player → RegBS) :
    let F_1 := reveal l0 ^^ reveal r0
    let F_2 := !((reveal l0 && reveal r0) ^^ F_1)
    reveal (delFlags bit l0 r0 c lf fs).1 =
        select (reveal fs && reveal l0)
          (select (reveal fs && F_2)
            (select (reveal lf && F_2) (select (reveal lf && F_1) (reveal c) (reveal l0)) true) false)
          (reveal l0) ∧
      reveal (delFlags bit l0 r0 c lf fs).2.1 = (reveal lf && F_2) ∧
      reveal (delFlags bit l0 r0 c lf fs).2.2.1 = (reveal fs && reveal l0) ∧
      reveal (delFlags bit l0 r0 c lf fs).2.2.2 = F_2 := by
  have htrue : reveal (fun p => (⟨p.bit⟩ : RegBS)) = true := rfl
  simp only [delFlags, reveal_selectBS, reveal_and, reveal_xorShare, reveal_notShare, reveal_falseShare, htrue,
    and_self]

theorem revealReturn_delReturn (bit : Nat → BitSelectTriple) (word : Nat → SelectCoins) (ptr : Player → RegXS)
    (lf af F_2 F_c2 F_c4 : Player → RegBS) (ret : DelReturn) :
    let F_nd := reveal lf && !reveal af
    let F_r := (F_nd && !reveal F_2) || reveal F_c4
    revealReturn (delReturn bit word ptr lf af F_2 F_c2 F_c4 ret) =
      { F_ss := reveal ret.F_ss || reveal F_c2
        N_d := select F_nd (reveal ret.N_d) (reveal ptr)
        N_s := select (reveal F_c4) (reveal ret.N_s) (reveal ptr)
        F_r := F_r
        ret_ptr := select F_r (reveal ptr) (reveal ret.ret_ptr) } := by
  simp only [revealReturn, delReturn, reveal_or, reveal_and, reveal_notShare, reveal_selectXS64]

section Specs

variable {s : WideState NodeField.Reg} {mem : Nodes} (hA : (via oramSize).shape.Oblivious) (tio : MPCTIO 1)
include hA

/-- The recursive `insert` on shares. -/
theorem insertRec_spec (h : s.Holds oramSize mem.array) (key : Player → RegAS) (coins : Nat → InsertLevel)
    (TTL : Nat) : ∀ (ptr : Player → RegXS) (isDummy : Player → RegBS), ∃ wptr direction,
      insertRec tio oramSize key coins TTL ptr isDummy s = some (wptr, direction, s) ∧
      Prac.BST.insertRec oramSize mem (reveal key) TTL (reveal ptr) (reveal isDummy) =
        (reveal wptr, reveal direction) := by
  induction TTL with
  | zero => exact fun ptr isDummy => ⟨ptr, _, rfl, rfl⟩
  | succ TTL ih =>
      intro ptr isDummy
      obtain ⟨cnode, hread, hnode⟩ := h.read_node hA tio ptr (coins TTL).node
      have hgt := reveal_compareKeys tio (coins TTL).keys (cnode .key) key
      -- what the level below returns, at the pointer and the flag passed down
      choose wptr direction hrec hval using ih
      refine ⟨?wptr, ?direction, ?run, ?value⟩
      case run =>
        rw [insertRec, hread]
        exact congrArg (· >>= _) (hrec _ _)
      case value =>
        rw [Prac.BST.insertRec]
        simp only [← hnode, revealNode, ← hgt, ← reveal_leftPtr, ← reveal_rightPtr,
          ← reveal_selectXS32 (coins TTL).next]
        simp only [← reveal_isZero tio.prg.node (coins TTL).zero, ← reveal_notShare, ← reveal_and (coins TTL).F_i,
          ← reveal_xorShare, hval]
        simp only [reveal_xorShare, reveal_selectXS64, reveal_and]
        rfl

/-- The recursive `lookup` on shares. -/
theorem lookupRec_spec (h : s.Holds oramSize mem.array) (key : Player → RegAS) (coins : Nat → LookupLevel)
    (TTL : Nat) : ∀ (ptr : Player → RegXS) (isDummy : Player → RegBS) (ret_node : ∀ f : NodeField, Player → f.Reg),
    ∃ found res, lookupRec tio oramSize key coins TTL ptr isDummy ret_node s = some (found, res, s) ∧
      Prac.BST.lookupRec oramSize mem (reveal key) TTL (reveal ptr) (reveal isDummy) (revealNode ret_node) =
        (reveal found, revealNode res) := by
  induction TTL with
  | zero => exact fun ptr isDummy ret_node => ⟨isDummy, ret_node, rfl, rfl⟩
  | succ TTL ih =>
      intro ptr isDummy ret_node
      obtain ⟨cnode, hread, hnode⟩ := h.read_node hA tio ptr (coins TTL).node
      choose found res hrec hval using ih
      refine ⟨?found, ?res, ?run, ?value⟩
      case run =>
        rw [lookupRec, hread]
        exact hrec _ _ _
      case value =>
        refine Eq.trans ?_ (hval _ _ _)
        rw [Prac.BST.lookupRec]
        simp only [← hnode, revealNode, nodeShares, reveal_selectXS32, reveal_selectXS64, reveal_select, reveal_or,
          reveal_eq, reveal_gt, reveal_sub, reveal_leftPtr, reveal_rightPtr]

/-- `BST::lookup` on shares. -/
theorem lookup_represents {b : BST oramSize} {ideal : Prac.BST oramSize} (h : b.Represents ideal)
    (key : Player → RegAS) (ret_node : ∀ f : NodeField, Player → f.Reg) (coins : Nat → LookupLevel) :
    ∃ found res, lookup tio b key ret_node coins = some ((found, res), b) ∧
      (reveal found, revealNode res) = ideal.lookup (reveal key) (revealNode ret_node) := by
  obtain ⟨found, res, hrec, hval⟩ :=
    lookupRec_spec hA tio h.oram key coins b.numItems b.root (fun _ => ⟨false⟩) ret_node
  refine ⟨found, res, ?_, ?_⟩
  · rw [lookup, hrec]
    rfl
  · rw [h.root, h.numItems, reveal_falseShare] at hval
    exact hval.symm

variable {b : BST oramSize} {ideal : Prac.BST oramSize} (hpad : (via oramSize).shape.PadFree)
include hpad

omit b ideal in
/-- The links of a node on the way back of `del`. -/
theorem writeBack (h : s.Holds oramSize mem.array) (ptr left right : Player → RegXS) (c_prime : Player → RegBS)
    (ret : DelReturn) (coins : DelLevel) :
    ∃ s', WideState.writeField tio s (via oramSize) ptr .pointers
        (mapShare2 setRightPtr
          (mapShare2 setLeftPtr (fun _ => ⟨0⟩)
            (selectXS 64 (coins.word 2) (mpcAnd (coins.bit 12) (notShare c_prime) ret.F_r) left ret.ret_ptr))
          (selectXS 64 (coins.word 1) (mpcAnd (coins.bit 11) c_prime ret.F_r) right ret.ret_ptr)) coins.write =
        some s' ∧
      s'.Holds oramSize (mem.writePointers (flat oramSize) ((flat oramSize).index (reveal ptr))
        (setRightPtr
          (setLeftPtr 0 (select (!reveal c_prime && reveal ret.F_r) (reveal left) (reveal ret.ret_ptr)))
          (select (reveal c_prime && reveal ret.F_r) (reveal right) (reveal ret.ret_ptr)))).array := by
  obtain ⟨s', hwrite, hs'⟩ := h.write_pointers hA tio ptr hpad _ coins.write
  refine ⟨s', hwrite, ?_⟩
  simp only [reveal_setLeftPtr, reveal_setRightPtr, reveal_selectXS64, reveal_and, reveal_notShare,
    reveal_zeroShare] at hs'
  exact hs'

omit b ideal in
/-- The recursive `del` on shares. -/
theorem delRec_spec (h : s.Holds oramSize mem.array) (del_key : Player → RegAS) (coins : Nat → DelLevel)
    (ret : DelReturn) (TTL : Nat) : ∀ (ptr : Player → RegXS) (af fs : Player → RegBS),
    ∃ found s' mem' ret', delRec tio oramSize del_key coins TTL ptr af fs (s, ret) = some (found, s', ret') ∧
      Prac.BST.delRec oramSize (reveal del_key) TTL (reveal ptr) (reveal af) (reveal fs) (mem, revealReturn ret) =
        (found, mem', revealReturn ret') ∧ s'.Holds oramSize mem'.array := by
  induction TTL with
  | zero =>
      intro ptr af fs
      refine ⟨_, s, mem, _, rfl, ?_, h⟩
      simp only [Prac.BST.delRec, revealReturn, reveal_notShare]
  | succ TTL ih =>
      intro ptr af fs
      obtain ⟨node, hread, hnode⟩ := h.read_node hA tio ptr (coins TTL).node
      obtain ⟨left, hleft⟩ : ∃ x, x = mapShare extractLeftPtr (node .pointers) := ⟨_, rfl⟩
      obtain ⟨right, hright⟩ : ∃ x, x = mapShare extractRightPtr (node .pointers) := ⟨_, rfl⟩
      obtain ⟨cmp, hcmp⟩ : ∃ x, x = compareWith tio.prg.node (coins TTL).cdpf fun p => del_key p - node .key p :=
        ⟨_, rfl⟩
      obtain ⟨flags, hflags⟩ : ∃ x, x = delFlags (coins TTL).bit (isZeroWith tio.prg.node (coins TTL).cdpf left)
        (isZeroWith tio.prg.node (coins TTL).cdpf right) (fun p => (cmp p).2.2) (fun p => (cmp p).2.1) fs :=
        ⟨_, rfl⟩
      obtain ⟨found, s', mem', ret', hrec, hval, hs'⟩ := ih (selectXS 32 ((coins TTL).word 0) flags.1 left right)
        (mpcOr ((coins TTL).bit 9) af fun p => (cmp p).2.1)
        (xorShare (mpcOr ((coins TTL).bit 10) fs flags.2.1) flags.2.2.1)
      -- what the level computes from the node, behind the shares
      have hl : reveal left = extractLeftPtr (reveal (node .pointers)) := hleft ▸ reveal_leftPtr _
      have hr : reveal right = extractRightPtr (reveal (node .pointers)) := hright ▸ reveal_rightPtr _
      have hlf : reveal (fun p => (cmp p).2.1) = (signedCompare (reveal del_key - reveal (node .key))).2.1 := by
        rw [hcmp, reveal_eq, reveal_sub]
      have hc : reveal (fun p => (cmp p).2.2) = (signedCompare (reveal del_key - reveal (node .key))).2.2 := by
        rw [hcmp, reveal_gt, reveal_sub]
      obtain ⟨hc_prime, hF_c2, hF_c4, hF_2⟩ := hflags ▸ reveal_delFlags (coins TTL).bit
        (isZeroWith tio.prg.node (coins TTL).cdpf left) (isZeroWith tio.prg.node (coins TTL).cdpf right)
        (fun p => (cmp p).2.2) (fun p => (cmp p).2.1) fs
      simp only [reveal_isZero, hl, hr, hlf, hc] at hc_prime hF_c2 hF_c4 hF_2
      simp only [reveal_selectXS32, reveal_or, reveal_xorShare, hl, hr, hlf, hc_prime, hF_c2, hF_c4] at hval
      have hideal := Prac.BST.delRec.eq_2 oramSize (reveal del_key) (reveal ptr) (reveal af) (reveal fs) TTL mem
        (revealReturn ret)
      simp only [← hnode, revealNode] at hideal
      rw [hval, ← hc_prime, ← hF_c2, ← hF_c4, ← hF_2, ← hlf, ← hl, ← hr] at hideal
      cases found with
      | false =>
          refine ⟨false, s', mem', ret', ?_, hideal, hs'⟩
          subst hflags hcmp hright hleft
          rw [delRec, hread]
          exact congrArg (· >>= _) hrec
      | true =>
          obtain ⟨s'', hwrite, hs''⟩ := writeBack hA tio hpad hs' ptr left right flags.1 ret' (coins TTL)
          refine ⟨true, s'', _, delReturn (coins TTL).bit (coins TTL).word ptr (fun p => (cmp p).2.1) af
            flags.2.2.2 flags.2.1 flags.2.2.1 ret', ?_, hideal.trans ?_, hs''⟩
          · subst hflags hcmp hright hleft
            rw [delRec, hread]
            exact (congrArg (· >>= _) hrec).trans (congrArg (· >>= _) hwrite)
          · rw [revealReturn_delReturn]
            rfl

/-- The end of `insert` on shares. -/
theorem link_represents (h : b.Represents ideal) (TTL : Nat) (insert_address : Player → RegXS)
    (key : Player → RegAS) (coins : InsertCoins) :
    ∃ b', link tio b TTL insert_address key coins = some b' ∧
      b'.Represents (ideal.link TTL (reveal insert_address) (reveal key)) := by
  obtain ⟨wptr, direction, hrec, hval⟩ := insertRec_spec hA tio h.oram key coins.level TTL b.root fun _ => ⟨false⟩
  obtain ⟨pointers, hread, hpointers⟩ := h.oram.read_pointers hA tio wptr coins.read
  obtain ⟨new_right_ptr, hright⟩ : ∃ x, x = selectXS 64 coins.right direction
    (mapShare extractRightPtr pointers) insert_address := ⟨_, rfl⟩
  obtain ⟨new_left_ptr, hleft⟩ : ∃ x, x = selectXS 64 coins.left (notShare direction)
    (mapShare extractLeftPtr pointers) insert_address := ⟨_, rfl⟩
  obtain ⟨s, hwrite, hs⟩ := h.oram.write_pointers hA tio wptr hpad
    (mapShare2 setRightPtr (mapShare2 setLeftPtr pointers new_left_ptr) new_right_ptr) coins.write
  refine ⟨{ b with oram := s }, ?_, ?_, h.root, h.numItems, h.emptyLocations⟩
  · subst hright hleft
    rw [link, hrec]
    exact (congrArg (· >>= _) hread).trans (congrArg (· >>= _) hwrite)
  · rw [h.root, reveal_falseShare] at hval
    have hideal : (ideal.link TTL (reveal insert_address) (reveal key)).oram =
        ideal.oram.writePointers (flat oramSize) ((flat oramSize).index (reveal wptr))
          (reveal (mapShare2 setRightPtr (mapShare2 setLeftPtr pointers new_left_ptr) new_right_ptr)) := by
      rw [Prac.BST.link, hval]
      simp only [← hpointers, hright, hleft, reveal_setLeftPtr, reveal_setRightPtr, reveal_selectXS64,
        reveal_leftPtr, reveal_rightPtr, reveal_notShare]
    rw [hideal]
    exact hs

/-- `BST::insert` on shares. -/
theorem insert_represents (h : b.Represents ideal) (node : ∀ f : NodeField, Player → f.Reg) (coins : InsertCoins)
    {ideal' : Prac.BST oramSize} (hins : ideal.insert (revealNode node) = some ideal') :
    ∃ b', insert tio b node coins = some b' ∧ b'.Represents ideal' := by
  rw [Prac.BST.insert] at hins
  rw [insert, h.numItems]
  by_cases hzero : ideal.numItems = 0
  · rw [if_pos hzero] at hins ⊢
    by_cases hroom : 1 < oramSize
    · rw [if_pos hroom] at hins ⊢
      cases hins
      exact ⟨_, rfl, h.oram.set_node hpad hroom node coins.blind, reveal_constant 1, rfl, h.emptyLocations⟩
    · rw [if_neg hroom] at hins
      cases hins
  · rw [if_neg hzero] at hins ⊢
    have hempty := h.emptyLocations
    cases hb : b.emptyLocations with
    | cons insert_address rest =>
        rw [hb, List.map_cons] at hempty
        rw [← hempty] at hins
        cases hins
        obtain ⟨s, hwrite, hs⟩ := h.oram.write_node hA tio insert_address hpad node coins.old coins.node
        have hrep : @Represents oramSize ⟨s, b.root, ideal.numItems + 1, rest⟩
            ⟨ideal.oram.write (flat oramSize) ((flat oramSize).index (reveal insert_address)) (revealNode node),
              ideal.root, ideal.numItems + 1, rest.map reveal⟩ := ⟨hs, h.root, rfl, rfl⟩
        obtain ⟨b', hlink, hb'⟩ := link_represents hA tio hpad hrep ideal.numItems insert_address (node .key) coins
        exact ⟨b', (congrArg (· >>= _) hwrite).trans hlink, hb'⟩
    | nil =>
        rw [hb] at hempty
        rw [← hempty] at hins
        dsimp only [List.map_nil] at hins ⊢
        by_cases hroom : 1 + (ideal.numItems + 1) < oramSize
        · rw [if_pos hroom] at hins ⊢
          cases hins
          have hs := h.oram.set_node (A := flat oramSize) hpad hroom node coins.blind
          have hrep : @Represents oramSize
              ⟨b.oram.explWrite (via oramSize) (1 + (ideal.numItems + 1)) node coins.blind, b.root,
                ideal.numItems + 1, []⟩
              ⟨ideal.oram.set (flat oramSize) (1 + (ideal.numItems + 1)) (revealNode node), ideal.root,
                ideal.numItems + 1, []⟩ := ⟨hs, h.root, rfl, rfl⟩
          obtain ⟨b', hlink, hb'⟩ := link_represents hA tio hpad hrep ideal.numItems
            (constant (BitVec.ofNat 64 (1 + (ideal.numItems + 1)))) (node .key) coins
          rw [reveal_constant] at hb'
          exact ⟨b', hlink, hb'⟩
        · rw [if_neg hroom] at hins
          cases hins

/-- `BST::del` on shares. -/
theorem del_represents (h : b.Represents ideal) (del_key : Player → RegAS) (coins : DelCoins) :
    ∃ b', del tio b del_key coins = some ((ideal.del (reveal del_key)).1, b') ∧
      b'.Represents (ideal.del (reveal del_key)).2 := by
  by_cases hzero : ideal.numItems = 0
  · rw [del, if_pos (h.numItems.trans hzero), Prac.BST.del, if_pos hzero]
    exact ⟨b, rfl, h⟩
  by_cases hone : ideal.numItems = 1
  · obtain ⟨s, hwrite, hs⟩ := h.oram.write_node hA tio b.root hpad
      (nodeShares (fun _ => ⟨0⟩) (fun _ => ⟨0⟩) fun _ => ⟨0⟩) coins.old coins.zero
    have hzeroNode : revealNode (nodeShares (fun _ => ⟨0⟩) (fun _ => ⟨0⟩) fun _ => ⟨0⟩) = 0 := rfl
    rw [hzeroNode, h.root] at hs
    rw [del, if_neg (h.numItems ▸ hzero), if_pos (h.numItems.trans hone), Prac.BST.del, if_neg hzero, if_pos hone]
    refine ⟨_, congrArg (· >>= _) hwrite, hs, h.root, rfl, ?_⟩
    rw [List.map_cons, h.root, h.emptyLocations]
  obtain ⟨success, s, mem, ret, hrec, hval, hs⟩ := delRec_spec hA tio hpad h.oram del_key coins.level .init
    b.numItems b.root (fun _ => ⟨false⟩) fun _ => ⟨false⟩
  have hinit : revealReturn .init = .init := rfl
  rw [h.root, h.numItems, reveal_falseShare, hinit] at hval
  rw [del, if_neg (h.numItems ▸ hzero), if_neg (h.numItems ▸ hone), hrec, Prac.BST.del, if_neg hzero, if_neg hone,
    hval]
  cases success with
  | false => exact ⟨_, rfl, hs, h.root, h.numItems, h.emptyLocations⟩
  | true =>
      obtain ⟨del_node, hdel, hdel_node⟩ := hs.read_node hA tio ret.N_d coins.del_node
      obtain ⟨suc_node, hsuc, hsuc_node⟩ := hs.read_node hA tio ret.N_s coins.suc_node
      obtain ⟨s1, hwrite1, hs1⟩ := hs.write_key hA tio ret.N_d hpad
        (mpcSelect 64 coins.key ret.F_ss (del_node .key) (suc_node .key)) (coins.write 0)
      obtain ⟨s2, hwrite2, hs2⟩ := hs1.write_value hA tio ret.N_d hpad
        (selectXS 64 coins.value ret.F_ss (del_node .value) (suc_node .value)) (coins.write 1)
      obtain ⟨s3, hwrite3, hs3⟩ := hs2.write_key hA tio ret.N_s hpad (fun _ => ⟨0⟩) (coins.write 2)
      obtain ⟨s4, hwrite4, hs4⟩ := hs3.write_value hA tio ret.N_s hpad (fun _ => ⟨0⟩) (coins.write 3)
      -- the reads and the writes, one after another
      refine ⟨_, (congrArg (· >>= _) hdel).trans <| (congrArg (· >>= _) hsuc).trans <|
        (congrArg (· >>= _) hwrite1).trans <| (congrArg (· >>= _) hwrite2).trans <|
        (congrArg (· >>= _) hwrite3).trans (congrArg (· >>= _) hwrite4), ?_, ?_, ?_, ?_⟩
      · have hzeroKey : reveal (fun _ => (⟨0⟩ : RegAS)) = 0 := reveal_zero
        rw [reveal_select, reveal_selectXS64, hzeroKey, reveal_zeroShare] at hs4
        simp only [revealReturn, ← hdel_node, ← hsuc_node]
        exact hs4
      · rw [reveal_selectXS64, h.root]
        rfl
      · rw [h.numItems]
      · rw [List.map_cons, reveal_selectXS64, h.emptyLocations]
        rfl

end Specs

end BST

end Shared

end Prac
