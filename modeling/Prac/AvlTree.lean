import Prac.AvlWords
import Prac.BstTree
import Prac.Lib.Balance

/-!
# The tree behind an AVL

* `AVL.Room` — a shape whose oblivious accesses reach every address below a bound, with `readNode_eq`
  and `updatePointers_eq`; `AVL.flat_room` — the flats of the operations.
* `AVL.linkOf`, `AVL.balOf` — the memory as links and balance bits.
* `AVL.AvlAt` — the links from a pointer form an AVL tree; `AVL.Valid` — the tree of an `AVL` with its
  invariants.
* `AVL.height_le_TTL` — the recursions reach the leaves.
-/

namespace Prac

/-! ## Accesses -/

section Reaches

variable {oramSize : Nat} {A : Shape oramSize} {oidx : Index} {addr : Nat}

theorem Shape.Reaches.add (h : A.Reaches oidx addr) (mem : Words) (M : Value) :
    A.add mem oidx M = Function.update mem addr (mem addr + M) := by
  unfold Shape.add Shape.set Shape.get
  rw [h.pos, if_pos h.lt, h.cell]

theorem Shape.Reaches.addXor (h : A.Reaches oidx addr) (mem : Words) (M : Value) :
    A.addXor mem oidx M = Function.update mem addr (mem addr ^^^ M) := by
  unfold Shape.addXor Shape.set Shape.get
  rw [h.pos, if_pos h.lt, h.cell]

end Reaches

namespace AVL

open BST (keyOf)

variable {oramSize : Nat}

/-- Every address below `bound` is reached by the oblivious indices of `width` bits. -/
structure Room (A : Shape oramSize) (width bound : Nat) : Prop where
  width : width = A.addrSize
  reaches : ∀ ptr : Value, ptr.toNat < bound → A.Reaches (A.index ptr) ptr.toNat

/-- The memory with new links at an address. -/
def setPointers (mem : Nodes) (addr : Nat) (w : Value) : Nodes :=
  { mem with pointers := Function.update mem.pointers addr w }

@[simp] theorem setPointers_key (mem : Nodes) (addr : Nat) (w : Value) :
    (setPointers mem addr w).key = mem.key := rfl
@[simp] theorem setPointers_value (mem : Nodes) (addr : Nat) (w : Value) :
    (setPointers mem addr w).value = mem.value := rfl
@[simp] theorem setPointers_pointers (mem : Nodes) (addr : Nat) (w : Value) :
    (setPointers mem addr w).pointers = Function.update mem.pointers addr w := rfl

theorem setPointers_self {mem : Nodes} {addr : Nat} {w : Value} (h : mem.pointers addr = w) :
    setPointers mem addr w = mem := by
  unfold setPointers
  rw [← h, Function.update_eq_self]

theorem flat_size {cur_max_index : Nat} (h : cur_max_index < oramSize) :
    (flat oramSize cur_max_index).size = cur_max_index + 1 := by
  simp only [flat, Shape.size, flatLen]
  rw [Nat.zero_min, Nat.sub_zero, if_neg (by omega)]

theorem width_eq {cur_max_index : Nat} (h : cur_max_index < oramSize) :
    width cur_max_index = (flat oramSize cur_max_index).addrSize := by
  unfold width Shape.addrSize
  rw [flat_size h, Nat.add_sub_cancel]
  have hclog : Nat.clog 2 (cur_max_index + 1) = cur_max_index.size := by
    refine eq_of_forall_ge_iff fun k => ?_
    rw [Nat.clog_le_iff_le_pow (by decide), Nat.size_le]
    exact Nat.succ_le_iff
  rw [hclog]
  split
  · rfl
  · obtain rfl : cur_max_index = 0 := by omega
    rfl

theorem flat_room {cur_max_index : Nat} (h : cur_max_index < oramSize) :
    Room (flat oramSize cur_max_index) (width cur_max_index) (cur_max_index + 1) := by
  refine ⟨width_eq h, fun ptr hptr => ⟨?_, ?_, ?_⟩⟩
  · refine Nat.mod_eq_of_lt (lt_of_lt_of_le hptr ?_)
    rw [← flat_size h]
    exact Shape.size_le_pow_addrSize _
  · rwa [flat_size h]
  · simp [flat, Shape.cell]

section Access

variable {A : Shape oramSize} {width bound : Nat} (hroom : Room A width bound) {ptr : Value}
include hroom

theorem readNode_eq (OPTIMIZED : Bool) (mem : Nodes) (hptr : ptr.toNat < bound) :
    readNode OPTIMIZED A mem ⟨ptr, width⟩ ptr = mem.holds ptr.toNat := by
  have hread := Nodes.read_of_reaches (hroom.reaches ptr hptr) mem
  unfold readNode
  rw [hroom.width]
  cases OPTIMIZED with
  | false => exact hread
  | true => exact hread

/-- Adding the difference from the current word is overwriting it. -/
theorem addPointers_eq {mem : Nodes} {old : Value} (new : Value) (hptr : ptr.toNat < bound)
    (hold : mem.pointers ptr.toNat = old) :
    mem.addPointers A ⟨ptr, width⟩ (new ^^^ old) = setPointers mem ptr.toNat new := by
  have hadd := (hroom.reaches ptr hptr).addXor mem.pointers (new ^^^ old)
  have hxor : old ^^^ (new ^^^ old) = new := by
    rw [BitVec.xor_comm new, ← BitVec.xor_assoc, BitVec.xor_self, BitVec.zero_xor]
  rw [hold, hxor] at hadd
  unfold Nodes.addPointers setPointers
  rw [hroom.width]
  exact congrArg (fun pointers => { mem with pointers }) hadd

theorem writePointers_eq (mem : Nodes) (new : Value) (hptr : ptr.toNat < bound) :
    mem.writePointers A (A.index ptr) new = setPointers mem ptr.toNat new :=
  Nodes.writePointers_of_reaches (hroom.reaches ptr hptr) mem new

/-- An update of the links acts on one node, if they are still what was read. -/
theorem updatePointers_eq (OPTIMIZED : Bool) {mem : Nodes} {old : Value} (new : Value)
    (hptr : ptr.toNat < bound) (hold : mem.pointers ptr.toNat = old) :
    updatePointers OPTIMIZED A mem ⟨ptr, width⟩ ptr new old = setPointers mem ptr.toNat new := by
  cases OPTIMIZED with
  | false => exact writePointers_eq hroom mem new hptr
  | true => exact addPointers_eq hroom new hptr hold

end Access

/-! ## The memory -/

/-- The link of the node at an address. -/
def linkOf (mem : Nodes) (d : Bool) (addr : Nat) : Nat := (link d (mem.pointers addr)).toNat

/-- The balance bit. -/
def balOf (mem : Nodes) (d : Bool) (addr : Nat) : Bool := bal d (mem.pointers addr)

/-- The pointer refers to an AVL tree, whose nodes are below `bound` and do not repeat. -/
structure AvlAt (bound : Nat) (mem : Nodes) (ptr : Value) (t : LinkedTree) : Prop where
  root : ptr.toNat = t.root
  avl : t.Avl (linkOf mem) (balOf mem)
  inside : ∀ a ∈ t.toList, a < bound
  nodup : t.toList.Nodup

/-- The AVL of a tree, with the invariants of `check_avl`.  The root of an empty AVL is not looked at. -/
structure Valid (b : AVL oramSize) (t : LinkedTree) : Prop where
  tree : t ≠ .nil → AvlAt (b.curMaxIndex + 1) b.oram b.root t
  ordered : t.Ordered (· ≤ ·) (keyOf b.oram)
  keys : ∀ a ∈ t.toList, keyOf b.oram a < 2 ^ 63
  zero : b.oram.holds 0 = 0
  items : b.numItems = t.size
  room : b.curMaxIndex < oramSize
  fits : b.curMaxIndex < 2 ^ 31

/-- Only links change, and only those of the nodes in `s`. -/
structure OnlyLinks (mem mem' : Nodes) (s : List Nat) : Prop where
  key : mem'.key = mem.key
  value : mem'.value = mem.value
  pointers : ∀ a ∉ s, mem'.pointers a = mem.pointers a

theorem OnlyLinks.refl (mem : Nodes) (s : List Nat) : OnlyLinks mem mem s := ⟨rfl, rfl, fun _ _ => rfl⟩

theorem OnlyLinks.trans {mem mem' mem'' : Nodes} {s : List Nat} (h : OnlyLinks mem mem' s)
    (h' : OnlyLinks mem' mem'' s) : OnlyLinks mem mem'' s :=
  ⟨h'.key.trans h.key, h'.value.trans h.value, fun a ha => (h'.pointers a ha).trans (h.pointers a ha)⟩

theorem OnlyLinks.mono {mem mem' : Nodes} {s s' : List Nat} (h : OnlyLinks mem mem' s)
    (hs : ∀ a ∈ s, a ∈ s') : OnlyLinks mem mem' s' :=
  ⟨h.key, h.value, fun a ha => h.pointers a fun has => ha (hs a has)⟩

theorem OnlyLinks.setPointers {mem mem' : Nodes} {s : List Nat} (h : OnlyLinks mem mem' s) {a : Nat}
    (ha : a ∈ s) (w : Value) : OnlyLinks mem (setPointers mem' a w) s := by
  refine ⟨h.key, h.value, fun x hx => ?_⟩
  rw [setPointers_pointers, Function.update_of_ne fun hxa : x = a => hx (hxa ▸ ha)]
  exact h.pointers x hx

/-- A tree depends on the links of its own nodes only. -/
theorem avl_congr {mem mem' : Nodes} {t : LinkedTree} (h : t.Avl (linkOf mem) (balOf mem))
    (heq : ∀ a ∈ t.toList, mem'.pointers a = mem.pointers a) : t.Avl (linkOf mem') (balOf mem') := by
  refine h.congr fun a ha d => ?_
  unfold linkOf balOf
  rw [heq a ha]
  exact ⟨rfl, rfl⟩

/-- A changed node outside the tree leaves the tree. -/
theorem avl_setPointers {mem : Nodes} {t : LinkedTree} (h : t.Avl (linkOf mem) (balOf mem)) {a : Nat}
    (ha : a ∉ t.toList) (w : Value) : t.Avl (linkOf (setPointers mem a w)) (balOf (setPointers mem a w)) :=
  avl_congr h fun x hx => Function.update_of_ne (fun hxa : x = a => ha (hxa ▸ hx)) _ _

section Branch

variable {bound : Nat} {mem : Nodes} {ptr : Value} {d : Bool} {a : Nat} {x y : LinkedTree}

/-- The node itself, by its word. -/
theorem avl_branch {near far : Value} {bal_near bal_far : Bool} (ha : a ≠ 0)
    (hw : Fields d (mem.pointers a) near far bal_near bal_far) (hnear : near.toNat = x.root)
    (hfar : far.toNat = y.root) (hxy : x.height ≤ y.height + 1) (hyx : y.height ≤ x.height + 1)
    (hbn : bal_near = decide (y.height < x.height)) (hbf : bal_far = decide (x.height < y.height))
    (hx : x.Avl (linkOf mem) (balOf mem)) (hy : y.Avl (linkOf mem) (balOf mem)) :
    (LinkedTree.branch d a x y).Avl (linkOf mem) (balOf mem) := by
  refine LinkedTree.Avl.branch_iff.2 ⟨ha, ?_, ?_, hxy, hyx, ?_, ?_, hx, hy⟩
  · exact (congrArg BitVec.toNat hw.near).trans hnear
  · exact (congrArg BitVec.toNat hw.far).trans hfar
  · exact hw.bal_near.trans hbn
  · exact hw.bal_far.trans hbf

/-- A node with a zero word is a leaf. -/
theorem avl_leaf (ha : a ≠ 0) (hw : mem.pointers a = 0) :
    (LinkedTree.node a .nil .nil).Avl (linkOf mem) (balOf mem) := by
  refine @avl_branch mem false a .nil .nil 0 0 false false ha ?_ rfl rfl (Nat.zero_le _) (Nat.zero_le _)
    rfl rfl .nil .nil
  rw [hw]
  exact ⟨link_zero _, link_zero _, bal_zero _, bal_zero _⟩

/-- The subtree in a direction. -/
theorem AvlAt.near (h : AvlAt bound mem ptr (LinkedTree.branch d a x y)) :
    AvlAt bound mem (link d (mem.pointers a)) x := by
  obtain ⟨_, hnear, _, _, _, _, _, hx, _⟩ := LinkedTree.Avl.branch_iff.1 h.avl
  obtain ⟨_, _, hndx, _, _⟩ := LinkedTree.nodup_branch.1 h.nodup
  exact ⟨hnear, hx, fun z hz => h.inside z (LinkedTree.mem_branch.2 (.inr (.inl hz))), hndx⟩

theorem AvlAt.far (h : AvlAt bound mem ptr (LinkedTree.branch d a x y)) :
    AvlAt bound mem (link (!d) (mem.pointers a)) y := by
  have h' := h
  rw [← LinkedTree.branch_not] at h'
  exact h'.near

end Branch

/-! ## The number of steps -/

theorem pow_lt_fib_pow : ∀ h < 45, 2 ≤ h → (2 ^ 25) ^ (h - 1) < (Nat.fib (h + 2) - 1) ^ 36 := by
  decide

/-- The recursions reach the leaves. -/
theorem height_le_TTL {t : LinkedTree} (h : t.Balanced) (hsize : t.size < 2 ^ 31) :
    t.height ≤ AVL_TTL t.size := by
  have hfib := h.fib_le_size
  have hle := t.height_le_size
  have hlt : t.height < 45 := by
    by_contra hge
    have h47 : Nat.fib 47 ≤ Nat.fib (t.height + 2) := Nat.fib_mono (by omega)
    have hval : Nat.fib 47 = 2971215073 := by decide
    omega
  unfold AVL_TTL
  by_cases h0 : t.size = 0
  · rw [if_pos h0]
    omega
  · by_cases h1 : t.size = 1
    · rw [if_neg h0, if_pos h1]
      omega
    · rw [if_neg h0, if_neg h1]
      by_contra hlow
      have hclog : Nat.clog (2 ^ 25) (t.size ^ 36) ≤ t.height - 1 := by omega
      rw [Nat.clog_le_iff_le_pow (by decide)] at hclog
      rcases Nat.lt_or_ge t.height 2 with hsmall | hbig
      · have hpow : 1 < t.size ^ 36 := Nat.one_lt_pow (by decide) (by omega)
        rw [show t.height - 1 = 0 by omega, Nat.pow_zero] at hclog
        omega
      · have hpow := pow_lt_fib_pow t.height hlt hbig
        have hmono : (Nat.fib (t.height + 2) - 1) ^ 36 ≤ t.size ^ 36 :=
          Nat.pow_le_pow_left (by omega) 36
        omega

theorem AVL_TTL_mono {m n : Nat} (h : m ≤ n) : AVL_TTL m ≤ AVL_TTL n := by
  unfold AVL_TTL
  by_cases hm0 : m = 0
  · rw [if_pos hm0]
    exact Nat.zero_le _
  · by_cases hn1 : n = 1
    · rw [if_neg hm0, if_pos (by omega), if_neg (by omega), if_pos hn1]
    · rw [if_neg hm0, if_neg (by omega : ¬ n = 0), if_neg hn1]
      have hpow : ∀ k, k ^ 36 ≤ n ^ 36 ↔ k ≤ n := fun k => Nat.pow_le_pow_iff_left (by decide)
      split
      · have hlt : 1 < n ^ 36 := Nat.one_lt_pow (by decide) (by omega)
        exact Nat.clog_pos (by decide) hlt
      · exact Nat.clog_mono_right _ ((hpow m).2 h)

end AVL

end Prac
