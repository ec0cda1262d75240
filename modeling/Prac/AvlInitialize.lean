import Prac.AvlValid
import Prac.Lib.PerfectTree
import Prac.StreamEval

/-!
# Initializing an AVL (`avl.cpp`)

* `AVL.initializeTree` — the nodes are written level by level, from the leaves up.
* `AVL.initializeLevel_spec`, `AVL.initialize_filled` — every node is written once, to the address that is its key.
* `AVL.initialize_correct` — what is there is a perfect search tree, as long as its addresses fit a link.
-/

namespace Prac

open Loop LinkedTree

namespace AVL

open BST (keyOf)

variable {oramSize : Nat}

/-- The node at `current` in level `i`. -/
def initializeNode (i current : Nat) : Node :=
  let start := 2 ^ (i - 1)
  let key := BitVec.ofNat 64 current
  if i ≠ 1 then
    let ptr_gap := start / 2
    let lptr := BitVec.ofNat 64 (current - ptr_gap)
    let rptr := BitVec.ofNat 64 (current + ptr_gap)
    ⟨key, setAVLRightPtr (setAVLLeftPtr 0 lptr) rptr, 0⟩
  else ⟨key, 0, 0⟩

/-- The body of the inner loop, with `current`.  An explicit access outside the memory is a failure. -/
def initializeBody (oramSize i : Nat) (st : Nodes × Nat) : Option (Nodes × Nat) :=
  let (mem, current) := st
  let A := (Shape.whole oramSize).val
  let gap := 2 ^ i
  -- the index is converted to an `address_t`
  let idx := current % 2 ^ addressMaxBits
  if idx < oramSize then some (mem.set A idx (initializeNode i current), current + gap) else none

/-- The inner loop: a level of the tree. -/
def initializeLevel (oramSize depth i : Nat) (mem : Nodes) : Option Nodes :=
  let start := 2 ^ (i - 1)
  (forRangeOpt 1 (2 ^ (depth - i) + 1) (fun _ => initializeBody oramSize i) (mem, start)).map Prod.fst

/-- `AVL::initialize`. -/
def initializeTree (b : AVL oramSize) (depth : Nat) : Option (AVL oramSize) :=
  let init_size := 2 ^ depth - 1
  (forRangeOpt 1 (depth + 1) (initializeLevel oramSize depth) b.oram).map fun oram =>
    { b with oram, root := BitVec.ofNat 64 (2 ^ (depth - 1)), numItems := init_size, curMaxIndex := init_size }

/-! ## The loops -/

/-- The nodes of the levels and places in `done` are written; the dummy node is as it was. -/
structure Filled (mem mem' : Nodes) (done : Nat → Nat → Prop) : Prop where
  nodes : ∀ e q, done e q → mem'.holds (2 ^ e * (2 * q + 1)) = initializeNode (e + 1) (2 ^ e * (2 * q + 1))
  zero : mem'.holds 0 = mem.holds 0

theorem Filled.mono {mem mem' : Nodes} {done done' : Nat → Nat → Prop} (h : Filled mem mem' done)
    (hdone : ∀ e q, done' e q → done e q) : Filled mem mem' done' :=
  ⟨fun e q hq => h.nodes e q (hdone e q hq), h.zero⟩

/-- One more node. -/
theorem Filled.set {mem mem' : Nodes} {done : Nat → Nat → Prop} (h : Filled mem mem' done) (e q : Nat) :
    Filled mem (setNode mem' (2 ^ e * (2 * q + 1)) (initializeNode (e + 1) (2 ^ e * (2 * q + 1))))
      fun e' q' => done e' q' ∨ e' = e ∧ q' = q := by
  refine ⟨fun e' q' hq' => ?_, ?_⟩
  · by_cases heq : e' = e ∧ q' = q
    · obtain ⟨rfl, rfl⟩ := heq
      simp [Nodes.holds, setNode]
    · have hne : 2 ^ e' * (2 * q' + 1) ≠ 2 ^ e * (2 * q + 1) := fun h => heq (two_pow_mul_odd_inj h)
      rw [setNode_of_ne hne]
      exact h.nodes e' q' (hq'.resolve_right heq)
  · have hne : 0 ≠ 2 ^ e * (2 * q + 1) := (Nat.mul_pos (Nat.two_pow_pos e) (Nat.succ_pos _)).ne
    rw [setNode_of_ne hne]
    exact h.zero

/-- The levels below `d`. -/
def LevelsBelow (depth d e q : Nat) : Prop := e < d ∧ q < 2 ^ (depth - (e + 1))

/-- The inner loop writes a level. -/
theorem initializeLevel_spec {depth d : Nat} (hd : d < depth) (hdepth : depth ≤ addressMaxBits)
    (hsize : 2 ^ depth ≤ oramSize) {mem mem' : Nodes} (h : Filled mem mem' (LevelsBelow depth d)) :
    ∃ mem'', initializeLevel oramSize depth (d + 1) mem' = some mem'' ∧
      Filled mem mem'' (LevelsBelow depth (d + 1)) := by
  have hloop : ∃ st, forRangeOpt 1 (2 ^ (depth - (d + 1)) + 1) (fun _ => initializeBody oramSize (d + 1))
      (mem', 2 ^ d) = some st ∧
      Filled mem st.1 (fun e q => LevelsBelow depth d e q ∨ e = d ∧ q < 2 ^ (depth - (d + 1)) + 1 - 1) ∧
        st.2 = 2 ^ d * (2 * (2 ^ (depth - (d + 1)) + 1 - 1) + 1) := by
    refine forRangeOpt_inv (fun j (st : Nodes × Nat) =>
      Filled mem st.1 (fun e q => LevelsBelow depth d e q ∨ e = d ∧ q < j - 1) ∧
        st.2 = 2 ^ d * (2 * (j - 1) + 1)) (Nat.le_add_left 1 _) ⟨h.mono fun e q hq => ?_, by simp⟩ ?_
    · exact hq.resolve_right fun hq => absurd hq.2 (Nat.not_lt_zero _)
    · rintro j ⟨mem₁, current⟩ hj hlast ⟨hfilled, hcurrent⟩
      obtain ⟨q, rfl⟩ : ∃ q, j = q + 1 := ⟨j - 1, by omega⟩
      rw [Nat.add_sub_cancel] at hfilled hcurrent ⊢
      dsimp only at hfilled hcurrent
      subst hcurrent
      have hlt := two_pow_mul_odd_lt hd (by omega : q < 2 ^ (depth - (d + 1)))
      have haddr : 2 ^ d * (2 * q + 1) % 2 ^ addressMaxBits = 2 ^ d * (2 * q + 1) :=
        Nat.mod_eq_of_lt (lt_of_lt_of_le hlt (Nat.pow_le_pow_right Nat.two_pos hdepth))
      refine ⟨(setNode mem₁ (2 ^ d * (2 * q + 1)) (initializeNode (d + 1) (2 ^ d * (2 * q + 1))), _), ?_, ?_, rfl⟩
      · unfold initializeBody
        dsimp only
        rw [haddr, if_pos (lt_of_lt_of_le hlt hsize), Nodes.set_whole, Nat.pow_succ]
        refine congrArg some (Prod.ext rfl ?_)
        dsimp only
        ring
      · refine (hfilled.set d q).mono fun e q' hq' => ?_
        rcases hq' with hbelow | ⟨rfl, hle⟩
        · exact .inl (.inl hbelow)
        · rcases Nat.lt_succ_iff_lt_or_eq.1 hle with hlt | rfl
          · exact .inl (.inr ⟨rfl, hlt⟩)
          · exact .inr ⟨rfl, rfl⟩
  obtain ⟨st, hloop, hfilled, _⟩ := hloop
  refine ⟨st.1, ?_, hfilled.mono fun e q hq => ?_⟩
  · unfold initializeLevel
    dsimp only
    rw [Nat.add_sub_cancel, hloop]
    rfl
  · rcases Nat.lt_succ_iff_lt_or_eq.1 hq.1 with hlt | rfl
    · exact .inl ⟨hlt, hq.2⟩
    · exact .inr ⟨rfl, hq.2⟩

/-- All levels are written. -/
theorem initialize_filled (b : AVL oramSize) {depth : Nat} (hdepth : depth ≤ addressMaxBits)
    (hsize : 2 ^ depth ≤ oramSize) : ∃ oram, Filled b.oram oram (LevelsBelow depth depth) ∧
      b.initializeTree depth = some { b with
        oram, root := BitVec.ofNat 64 (2 ^ (depth - 1)), numItems := 2 ^ depth - 1,
        curMaxIndex := 2 ^ depth - 1 } := by
  have hloop : ∃ oram, forRangeOpt 1 (depth + 1) (initializeLevel oramSize depth) b.oram = some oram ∧
      Filled b.oram oram (LevelsBelow depth (depth + 1 - 1)) := by
    refine forRangeOpt_inv (fun i mem => Filled b.oram mem (LevelsBelow depth (i - 1))) (Nat.le_add_left 1 _)
      ⟨fun e q hq => absurd hq.1 (Nat.not_lt_zero _), rfl⟩ fun i mem hi hlast h => ?_
    obtain ⟨d, rfl⟩ : ∃ d, i = d + 1 := ⟨i - 1, by omega⟩
    exact initializeLevel_spec (by omega) hdepth hsize h
  obtain ⟨oram, hloop, hfilled⟩ := hloop
  refine ⟨oram, hfilled, ?_⟩
  unfold initializeTree
  rw [hloop]
  rfl

/-! ## The tree -/

/-- The links of a node above the leaves. -/
theorem initializeNode_pointers (e q : Nat) :
    (initializeNode (e + 2) (2 ^ (e + 1) * (2 * q + 1))).pointers =
      setAVLRightPtr (setAVLLeftPtr 0 (BitVec.ofNat 64 (perfect (e + 1) (2 * q)).root))
        (BitVec.ofNat 64 (perfect (e + 1) (2 * q + 1)).root) := by
  have hgap : 2 ^ (e + 2 - 1) / 2 = 2 ^ e := by
    rw [(by omega : e + 2 - 1 = e + 1), Nat.pow_succ, Nat.mul_div_cancel _ Nat.two_pos]
  have hleft : 2 ^ (e + 1) * (2 * q + 1) - 2 ^ e = (perfect (e + 1) (2 * q)).root := by
    rw [root_perfect, (by rw [Nat.pow_succ]; ring :
      2 ^ (e + 1) * (2 * q + 1) = 2 ^ e * (2 * (2 * q) + 1) + 2 ^ e), Nat.add_sub_cancel]
  have hright : 2 ^ (e + 1) * (2 * q + 1) + 2 ^ e = (perfect (e + 1) (2 * q + 1)).root := by
    rw [root_perfect, Nat.pow_succ]
    ring
  unfold initializeNode
  dsimp only
  rw [if_pos (by omega), hgap, hleft, hright]

/-- The links lead to the children if these fit a link, and the balance bits are not set. -/
theorem initializeNode_links {depth e q : Nat} (hle : depth ≤ 31) (he : e < depth)
    (hq : q < 2 ^ (depth - (e + 1))) :
    let w := (initializeNode (e + 1) (2 ^ e * (2 * q + 1))).pointers
    (link false w).toNat = (perfect e (2 * q)).root ∧ (link true w).toNat = (perfect e (2 * q + 1)).root ∧
      ∀ d, bal d w = false := by
  intro w
  cases e with
  | zero =>
      have hw : w = 0 := rfl
      rw [hw, link_zero, link_zero]
      exact ⟨rfl, rfl, bal_zero⟩
  | succ e =>
      have hwidth := two_pow_sub_succ he
      have hroot : ∀ p < 2 ^ (depth - (e + 1)),
          (BitVec.ofNat 64 (perfect (e + 1) p).root).toNat = (perfect (e + 1) p).root ∧
            (BitVec.ofNat 64 (perfect (e + 1) p).root).toNat < 2 ^ 31 := by
        intro p hp
        have hlt : (perfect (e + 1) p).root < 2 ^ depth := two_pow_mul_odd_lt (by omega) hp
        have h31 : 2 ^ depth ≤ 2 ^ 31 := Nat.pow_le_pow_right Nat.two_pos hle
        rw [BitVec.toNat_ofNat, Nat.mod_eq_of_lt (by omega)]
        exact ⟨rfl, by omega⟩
      obtain ⟨hleft, hleft31⟩ := hroot (2 * q) (by omega)
      obtain ⟨hright, hright31⟩ := hroot (2 * q + 1) (by omega)
      have hw : w = setLink true (setLink false 0 (BitVec.ofNat 64 (perfect (e + 1) (2 * q)).root))
          (BitVec.ofNat 64 (perfect (e + 1) (2 * q + 1)).root) := initializeNode_pointers e q
      rw [hw]
      refine ⟨?_, ?_, fun d => ?_⟩
      · rw [link_setLink hright31, if_neg (by simp), link_setLink hleft31, if_pos rfl, hleft]
      · rw [link_setLink hright31, if_pos rfl, hright]
      · rw [bal_setLink hright31, bal_setLink hleft31, bal_zero]

/-- The result is the perfect search tree with the keys from 1 on, each stored at the address that is its key, and
with correct balance bits. -/
structure InitializedTo (b : AVL oramSize) (depth : Nat) (t : LinkedTree) : Prop where
  root : b.root.toNat = t.root
  avl : t.Avl (linkOf b.oram) (balOf b.oram)
  perfect : t.Perfect
  ordered : t.Ordered (· ≤ ·) (keyOf b.oram)
  nodes : t.toList = List.range' 1 (2 ^ depth - 1)
  keys : ∀ a ∈ t.toList, keyOf b.oram a = a
  numItems : b.numItems = 2 ^ depth - 1
  curMaxIndex : b.curMaxIndex = 2 ^ depth - 1

/-- `initialize` returns, and with such a tree. -/
def Initializes (b : AVL oramSize) (depth : Nat) : Prop :=
  ∃ b' t, b.initializeTree depth = some b' ∧ b'.InitializedTo depth t

/-- What is written is the tree. -/
theorem Filled.initializedTo {mem : Nodes} {b : AVL oramSize} {depth : Nat} (hpos : 1 ≤ depth) (hle : depth ≤ 31)
    (h : Filled mem b.oram (LevelsBelow depth depth)) (hroot : b.root = BitVec.ofNat 64 (2 ^ (depth - 1)))
    (hitems : b.numItems = 2 ^ depth - 1) (hmax : b.curMaxIndex = 2 ^ depth - 1) :
    b.InitializedTo depth (perfect depth 0) := by
  have h31 : 2 ^ depth ≤ 2 ^ 31 := Nat.pow_le_pow_right Nat.two_pos hle
  have hone : 0 < 2 ^ (depth - depth) := Nat.two_pow_pos _
  have hlist : (perfect depth 0).toList = List.range' 1 (2 ^ depth - 1) := by
    rw [toList_perfect, Nat.mul_zero]
  have hnode : ∀ e q, e < depth → q < 2 ^ (depth - (e + 1)) →
      b.oram.holds (2 ^ e * (2 * q + 1)) = initializeNode (e + 1) (2 ^ e * (2 * q + 1)) := fun e q he hq =>
    h.nodes e q ⟨he, hq⟩
  have hkeys : ∀ a ∈ (perfect depth 0).toList, keyOf b.oram a = a := by
    refine forall_perfect (fun e q he hq => ?_) le_rfl hone
    have hkey : b.oram.key (2 ^ e * (2 * q + 1)) = BitVec.ofNat 64 (2 ^ e * (2 * q + 1)) := by
      apply (congrArg Node.key (hnode e q he hq)).trans
      unfold initializeNode
      dsimp only
      split <;> rfl
    have hlt := two_pow_mul_odd_lt he hq
    rw [keyOf, hkey, BitVec.toNat_ofNat, Nat.mod_eq_of_lt (by omega)]
  refine ⟨?_, ⟨?_, (perfect_perfect _ _).balanced, ?_⟩, perfect_perfect _ _, ?_, hlist, hkeys, hitems, hmax⟩
  · obtain ⟨e, rfl⟩ : ∃ e, depth = e + 1 := ⟨depth - 1, by omega⟩
    have hdouble : 2 ^ (e + 1) = 2 * 2 ^ e := Nat.pow_succ'
    rw [hroot, Nat.add_sub_cancel, root_perfect, BitVec.toNat_ofNat, Nat.mod_eq_of_lt (by omega)]
    exact (Nat.mul_one _).symm
  · refine stored_perfect (fun e q he hq => ?_) le_rfl hone
    obtain ⟨hleft, hright, _⟩ := initializeNode_links hle he hq
    rw [linkOf, linkOf, show b.oram.pointers _ = _ from congrArg Node.pointers (hnode e q he hq)]
    exact ⟨hleft, hright⟩
  · refine (perfect_perfect _ _).balanceBits (forall_perfect (fun e q he hq => ?_) le_rfl hone)
    obtain ⟨_, _, hbal⟩ := initializeNode_links hle he hq
    rw [balOf, balOf, show b.oram.pointers _ = _ from congrArg Node.pointers (hnode e q he hq)]
    exact ⟨hbal false, hbal true⟩
  · rw [ordered_le_iff]
    refine List.Pairwise.imp_of_mem (fun ha hb hlt => ?_) (hlist ▸ List.pairwise_lt_range' : List.Pairwise (· < ·) _)
    rw [hkeys _ ha, hkeys _ hb]
    exact le_of_lt hlt

/-- **Initialization.**  An AVL with zero cells and room for the nodes becomes the perfect search tree, which
`check_avl` accepts, if the addresses fit a link. -/
theorem initialize_correct {b : AVL oramSize} {depth : Nat} (hpos : 1 ≤ depth) (hle : depth ≤ 31)
    (hsize : 2 ^ depth ≤ oramSize) (hzero : ∀ a, b.oram.holds a = 0) :
    ∃ b' t, b.initializeTree depth = some b' ∧ b'.InitializedTo depth t ∧ b'.Valid t ∧ b'.Accepted ∧
      ∀ a, LinkedTree.Reachable (linkOf b'.oram false) (linkOf b'.oram true) b'.root.toNat a ↔
        1 ≤ a ∧ a < 2 ^ depth := by
  have h31 : 2 ^ depth ≤ 2 ^ 31 := Nat.pow_le_pow_right Nat.two_pos hle
  have hadd : depth ≤ addressMaxBits := le_trans hle (by decide)
  obtain ⟨oram, hfilled, hrun⟩ := initialize_filled b hadd hsize
  obtain ⟨b', hb'⟩ : ∃ b' : AVL oramSize, b' = { b with
    oram, root := BitVec.ofNat 64 (2 ^ (depth - 1)), numItems := 2 ^ depth - 1, curMaxIndex := 2 ^ depth - 1 } :=
    ⟨_, rfl⟩
  rw [← hb'] at hrun
  have hto : b'.InitializedTo depth (perfect depth 0) := by
    subst hb'
    exact Filled.initializedTo hpos hle hfilled rfl rfl rfl
  have hdouble : 2 ≤ 2 ^ depth := Nat.pow_le_pow_right Nat.two_pos hpos
  have hmem : ∀ a, a ∈ (perfect depth 0).toList ↔ 1 ≤ a ∧ a < 2 ^ depth := by
    intro a
    rw [hto.nodes, List.mem_range'_1]
    omega
  have hvalid : b'.Valid (perfect depth 0) := by
    have hmax := hto.curMaxIndex
    refine ⟨fun _ => ⟨hto.root, hto.avl, fun a ha => ?_, ?_⟩, hto.ordered, fun a ha => ?_, ?_, ?_, ?_, ?_⟩
    · have := (hmem a).1 ha
      omega
    · rw [hto.nodes]
      exact List.nodup_range'
    · have := (hmem a).1 ha
      rw [hto.keys a ha]
      omega
    · rw [hb']
      exact hfilled.zero.trans (hzero 0)
    · rw [hto.numItems, LinkedTree.size, hto.nodes, List.length_range']
    · omega
    · omega
  have hne : perfect depth 0 ≠ .nil := by
    intro hnil
    have hone := (hmem 1).2 ⟨le_rfl, hdouble⟩
    rw [hnil] at hone
    simp at hone
  refine ⟨b', _, hrun, hto, hvalid, hvalid.accepted hne, fun a => ?_⟩
  rw [hto.root, hto.avl.stored.reachable_iff]
  exact hmem a

/-- Three nodes in a memory of four. -/
theorem initialize_correct_two : ∃ b' t, (init : AVL 4).initializeTree 2 = some b' ∧ b'.InitializedTo 2 t := by
  obtain ⟨b', t, hrun, hto, _⟩ := @initialize_correct 4 init 2 (by decide) (by decide) (by decide) fun _ => rfl
  exact ⟨b', t, hrun, hto⟩

/-- The memory of the greatest size has room for a tree of depth 32; the right link of its root does not fit, and the
tree is lost. -/
theorem initialize_overflows : ¬ (init : AVL (2 ^ 32)).Initializes 32 := by
  rintro ⟨b', t, hrun, hto⟩
  obtain ⟨oram, hfilled, hrun'⟩ := @initialize_filled (2 ^ 32) init 32 le_rfl le_rfl
  obtain rfl := Option.some.inj (hrun'.symm.trans hrun)
  have hword : oram.pointers (2 ^ 31) = setAVLRightPtr (setAVLLeftPtr 0 (BitVec.ofNat 64 (2 ^ 30)))
      (BitVec.ofNat 64 (2 ^ 30 * 3)) := by
    have hnode := congrArg Node.pointers (hfilled.nodes 31 0 ⟨by decide, by decide⟩)
    exact hnode.trans (initializeNode_pointers 30 0)
  have hlink : linkOf oram true (2 ^ 31) = 2 ^ 30 := by
    rw [linkOf, hword]
    decide
  have hroot : 2 ^ 31 = t.root := hto.root
  have hstored := hto.avl.stored
  have hordered := hto.ordered
  have hkeys := hto.keys
  cases t with
  | nil => exact absurd hroot (by decide)
  | node a l r =>
      obtain rfl : 2 ^ 31 = a := hroot
      obtain ⟨_, _, hright, _, _⟩ := hstored
      obtain ⟨_, hgt, _, _⟩ := hordered
      have hr : r.root = 2 ^ 30 := hright.symm.trans hlink
      have hin : 2 ^ 30 ∈ r.toList := hr ▸ root_mem fun hnil => absurd (hnil ▸ hr) (by decide)
      have hle := hgt _ hin
      rw [hkeys _ (mem_node.2 (.inr (.inl rfl))), hkeys _ (mem_node.2 (.inr (.inr hin)))] at hle
      exact absurd hle (by decide)

end AVL

end Prac
