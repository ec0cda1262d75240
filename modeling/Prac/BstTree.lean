import Prac.Bst
import Prac.Lib.LinkedTree

/-!
# The tree behind a BST

* `extractLeftPtr_toNat`, `pack` and the lemmas about packed links.
* `BST.leftLink`, `BST.rightLink`, `BST.keyOf`, `BST.pairOf` — the memory as links, keys and key/value
  pairs.
* `BST.HasTree` — the links from the root form a tree; `Accepted.exists_tree` — `check_bst` accepts
  nothing else, and `HasTree.accepted_iff` — it accepts exactly the strict search trees.
-/

namespace Prac

/-! ## Packed links -/

theorem getLsbD_lowMask (i : Nat) : (0x00000000FFFFFFFF : Value).getLsbD i = decide (i < 32) := by
  have h := Nat.testBit_two_pow_sub_one 32 i
  rwa [← BitVec.testBit_toNat]

theorem highMask_eq : (0xFFFFFFFF00000000 : Value) = ~~~(0x00000000FFFFFFFF : Value) := by decide

theorem extractLeftPtr_toNat (p : Value) : (extractLeftPtr p).toNat = p.toNat / 2 ^ 32 := by
  have h : extractLeftPtr p = p >>> 32 := by
    apply BitVec.eq_of_getLsbD_eq
    intro i hi
    simp only [extractLeftPtr, highMask_eq, BitVec.getLsbD_ushiftRight, BitVec.getLsbD_and,
      BitVec.getLsbD_not, getLsbD_lowMask]
    by_cases hlt : 32 + i < 64
    · simp [hlt]
    · rw [BitVec.getLsbD_of_ge p _ (by omega), Bool.false_and]
  rw [h, BitVec.toNat_ushiftRight, Nat.shiftRight_eq_div_pow]

theorem extractRightPtr_toNat (p : Value) : (extractRightPtr p).toNat = p.toNat % 2 ^ 32 := by
  unfold extractRightPtr
  rw [BitVec.toNat_and]
  exact Nat.and_two_pow_sub_one_eq_mod p.toNat 32

theorem extractLeftPtr_lt (p : Value) : (extractLeftPtr p).toNat < 2 ^ 32 := by
  rw [extractLeftPtr_toNat]
  have := p.isLt
  omega

theorem extractRightPtr_lt (p : Value) : (extractRightPtr p).toNat < 2 ^ 32 := by
  rw [extractRightPtr_toNat]
  exact Nat.mod_lt _ (by decide)

theorem getLsbD_setLeftPtr (p l : Value) {i : Nat} (hi : i < 64) :
    (setLeftPtr p l).getLsbD i = if i < 32 then p.getLsbD i else l.getLsbD (i - 32) := by
  unfold setLeftPtr
  rw [BitVec.getLsbD_xor, BitVec.getLsbD_and, BitVec.getLsbD_shiftLeft, getLsbD_lowMask]
  by_cases hlt : i < 32
  · simp [hlt]
  · simp [hlt, hi]

theorem getLsbD_setRightPtr (p r : Value) {i : Nat} (hi : i < 64) :
    (setRightPtr p r).getLsbD i = ((!decide (i < 32) && p.getLsbD i) ^^ r.getLsbD i) := by
  unfold setRightPtr
  rw [BitVec.getLsbD_xor, BitVec.getLsbD_and, highMask_eq, BitVec.getLsbD_not, getLsbD_lowMask,
    decide_eq_true hi, Bool.true_and, Bool.and_comm]

/-- Setting both links leaves nothing of the old word. -/
theorem setPtrs_toNat (p : Value) {l r : Value} (hl : l.toNat < 2 ^ 32) (hr : r.toNat < 2 ^ 32) :
    (setRightPtr (setLeftPtr p l) r).toNat = l.toNat * 2 ^ 32 + r.toNat := by
  have hor : setRightPtr (setLeftPtr p l) r = l <<< 32 ||| r := by
    apply BitVec.eq_of_getLsbD_eq
    intro i hi
    rw [getLsbD_setRightPtr _ _ hi, getLsbD_setLeftPtr _ _ hi, BitVec.getLsbD_or,
      BitVec.getLsbD_shiftLeft]
    by_cases hlt : i < 32
    · simp [hlt]
    · have hri : r.getLsbD i = false := by
        rw [← BitVec.testBit_toNat]
        exact Nat.testBit_lt_two_pow
          (lt_of_lt_of_le hr (Nat.pow_le_pow_right Nat.two_pos (Nat.le_of_not_lt hlt)))
      rw [hri]
      simp [hlt, hi]
  have hshift : (l <<< 32).toNat = l.toNat * 2 ^ 32 := by
    rw [BitVec.toNat_shiftLeft, Nat.shiftLeft_eq, Nat.mod_eq_of_lt (by omega)]
  rw [hor, BitVec.toNat_or, hshift, ← Nat.shiftLeft_eq, Nat.shiftLeft_add_eq_or_of_lt hr]

theorem extractLeftPtr_setPtrs (p : Value) {l r : Value} (hl : l.toNat < 2 ^ 32)
    (hr : r.toNat < 2 ^ 32) : extractLeftPtr (setRightPtr (setLeftPtr p l) r) = l := by
  apply BitVec.eq_of_toNat_eq
  rw [extractLeftPtr_toNat, setPtrs_toNat p hl hr]
  omega

theorem extractRightPtr_setPtrs (p : Value) {l r : Value} (hl : l.toNat < 2 ^ 32)
    (hr : r.toNat < 2 ^ 32) : extractRightPtr (setRightPtr (setLeftPtr p l) r) = r := by
  apply BitVec.eq_of_toNat_eq
  rw [extractRightPtr_toNat, setPtrs_toNat p hl hr]
  omega

/-- Links set to what they were. -/
theorem setPtrs_extract (p q : Value) :
    setRightPtr (setLeftPtr p (extractLeftPtr q)) (extractRightPtr q) = q := by
  apply BitVec.eq_of_toNat_eq
  rw [setPtrs_toNat p (extractLeftPtr_lt q) (extractRightPtr_lt q), extractLeftPtr_toNat,
    extractRightPtr_toNat]
  omega

/-- Choosing between links does not truncate them. -/
theorem selectBits_extract (f : Bool) (p : Value) :
    selectBits 32 f (extractLeftPtr p) (extractRightPtr p) =
      select f (extractLeftPtr p) (extractRightPtr p) :=
  selectBits_of_lt (by decide) (extractLeftPtr_lt p) (extractRightPtr_lt p)

namespace BST

variable {oramSize : Nat}

/-- The left link of the node at an address. -/
def leftLink (mem : Nodes) (addr : Nat) : Nat := (extractLeftPtr (mem.pointers addr)).toNat

/-- The right link. -/
def rightLink (mem : Nodes) (addr : Nat) : Nat := (extractRightPtr (mem.pointers addr)).toNat

/-- The key as a number. -/
def keyOf (mem : Nodes) (addr : Nat) : Nat := (mem.key addr).toNat

/-- The key and the value. -/
def pairOf (mem : Nodes) (addr : Nat) : Value × Value := (mem.key addr, mem.value addr)

/-- `A[ptr]` for a pointer inside the memory. -/
theorem read_flat (mem : Nodes) {ptr : Value} (h : ptr.toNat < oramSize) :
    mem.read (flat oramSize) ((flat oramSize).index ptr) = mem.holds ptr.toNat :=
  Nodes.read_of_reaches (Shape.whole_reaches h) mem

theorem writePointers_flat (mem : Nodes) {ptr : Value} (h : ptr.toNat < oramSize) (M : Value) :
    mem.writePointers (flat oramSize) ((flat oramSize).index ptr) M =
      { mem with pointers := Function.update mem.pointers ptr.toNat M } :=
  Nodes.writePointers_of_reaches (Shape.whole_reaches h) mem M

/-- The links from `ptr` form the tree, whose nodes are inside the memory and do not repeat. -/
structure TreeAt (oramSize : Nat) (mem : Nodes) (ptr : Value) (t : LinkedTree) : Prop where
  root : ptr.toNat = t.root
  stored : t.Stored (leftLink mem) (rightLink mem)
  inside : ∀ a ∈ t.toList, a < oramSize
  nodup : t.toList.Nodup

/-- The tree of a `BST`. -/
def HasTree (b : BST oramSize) (t : LinkedTree) : Prop := TreeAt oramSize b.oram b.root t

/-- The keys are not zero and below `2^63`. -/
def KeysOk (mem : Nodes) (t : LinkedTree) : Prop :=
  ∀ a ∈ t.toList, mem.key a ≠ 0 ∧ keyOf mem a < 2 ^ 63

/-- The key/value pairs of the tree. -/
def pairs (mem : Nodes) (t : LinkedTree) : Multiset (Value × Value) :=
  ↑(t.toList.map (pairOf mem))

theorem mem_pairs {mem : Nodes} {t : LinkedTree} {x : Value × Value} :
    x ∈ pairs mem t ↔ ∃ a ∈ t.toList, pairOf mem a = x := by
  simp [pairs]

/-! ## The check -/

/-- Where the check ends, the links form a tree. -/
theorem checkBst_tree {R : Nodes} : ∀ {fuel : Nat} {node lo hi : Value} {res : Bool × Nat},
    checkBst oramSize R fuel node lo hi = some res → ∃ t : LinkedTree, node.toNat = t.root ∧
      t.Stored (leftLink R) (rightLink R) ∧ ∀ a ∈ t.toList, a < oramSize := by
  intro fuel
  induction fuel with
  | zero => intro node lo hi res h; cases h
  | succ fuel ih =>
      intro node lo hi res h
      unfold checkBst at h
      split at h
      · rename_i hzero
        exact ⟨.nil, by simp [hzero], trivial, by simp⟩
      · rename_i hzero
        split at h
        · rename_i hlt
          dsimp only at h
          split at h
          · rename_i leftok leftheight rightok rightheight hleft hright
            obtain ⟨l, hlroot, hl, hlin⟩ := ih hleft
            obtain ⟨r, hrroot, hr, hrin⟩ := ih hright
            refine ⟨.node node.toNat l r, rfl, ⟨?_, hlroot, hrroot, hl, hr⟩, ?_⟩
            · intro h0
              exact hzero (BitVec.eq_of_toNat_eq h0)
            · intro a ha
              rcases LinkedTree.mem_node.1 ha with ha | rfl | ha
              · exact hlin a ha
              · exact hlt
              · exact hrin a ha
          · cases h
        · cases h

/-- What the check computes on a tree. -/
theorem checkBst_eq_true {R : Nodes} {t : LinkedTree} (hs : t.Stored (leftLink R) (rightLink R))
    (hkeys : ∀ a ∈ t.toList, keyOf R a < 2 ^ 63) : ∀ {fuel height : Nat} {node lo hi : Value}
    {ok : Bool}, node.toNat = t.root → checkBst oramSize R fuel node lo hi = some (ok, height) →
      (ok = true ↔ t.Ordered (· < ·) (keyOf R) ∧
        ∀ a ∈ t.toList, lo.toNat ≤ keyOf R a ∧ keyOf R a ≤ hi.toNat) := by
  induction t with
  | nil =>
      intro fuel height node lo hi ok hroot h
      cases fuel with
      | zero => cases h
      | succ fuel =>
          have hzero : node = 0 := BitVec.eq_of_toNat_eq hroot
          rw [checkBst, if_pos hzero] at h
          cases h
          simp [LinkedTree.Ordered]
  | node a l r ihl ihr =>
      intro fuel height node lo hi ok hroot h
      obtain ⟨ha, hleft, hright, hsl, hsr⟩ := hs
      cases fuel with
      | zero => cases h
      | succ fuel =>
          obtain rfl : node.toNat = a := hroot
          have hzero : node ≠ 0 := fun h0 => ha (by rw [h0]; rfl)
          rw [checkBst, if_neg hzero] at h
          split at h
          · dsimp only at h
            split at h
            · rename_i leftok leftheight rightok rightheight hl hr
              have hkl := ihl hsl (fun x hx => hkeys x (LinkedTree.mem_node.2 (.inl hx))) hleft hl
              have hkr := ihr hsr (fun x hx => hkeys x (LinkedTree.mem_node.2 (.inr (.inr hx))))
                hright hr
              have hkey : (R.key node.toNat).toNat < 2 ^ 63 := hkeys node.toNat (by simp)
              have hsucc : (R.key node.toNat + 1).toNat = keyOf R node.toNat + 1 := by
                rw [BitVec.toNat_add]
                exact Nat.mod_eq_of_lt (Nat.lt_of_lt_of_le (Nat.succ_lt_succ hkey) (by decide))
              cases h
              have hself : (R.holds node.toNat).key = R.key node.toNat := rfl
              rw [hself, hsucc] at hkr
              rw [hself] at hkl ⊢
              simp only [Bool.and_eq_true, hkl, hkr, decide_eq_true_eq, BitVec.le_def]
              change _ ↔ ((∀ x ∈ l.toList, _) ∧ (∀ x ∈ r.toList, _) ∧ _ ∧ _) ∧ _
              constructor
              · rintro ⟨⟨⟨⟨hol, hbl⟩, hor, hbr⟩, hlo⟩, hhi⟩
                refine ⟨⟨fun x hx => (hbl x hx).2, fun x hx => (hbr x hx).1, hol, hor⟩, ?_⟩
                intro x hx
                rcases LinkedTree.mem_node.1 hx with hx | rfl | hx
                · exact ⟨(hbl x hx).1, le_trans (hbl x hx).2 hhi⟩
                · exact ⟨hlo, hhi⟩
                · exact ⟨le_trans hlo (le_of_lt (hbr x hx).1), (hbr x hx).2⟩
              · rintro ⟨⟨hle, hgt, hol, hor⟩, hb⟩
                have hb0 := hb node.toNat (by simp)
                refine ⟨⟨⟨⟨hol, fun x hx => ⟨?_, hle x hx⟩⟩, hor, fun x hx => ⟨hgt x hx, ?_⟩⟩, hb0.1⟩, hb0.2⟩
                · exact (hb x (LinkedTree.mem_node.2 (.inl hx))).1
                · exact (hb x (LinkedTree.mem_node.2 (.inr (.inr hx)))).2
            · cases h
          · cases h

/-- The check ends on a tree. -/
theorem checkBst_isSome {R : Nodes} {t : LinkedTree} (hs : t.Stored (leftLink R) (rightLink R))
    (hin : ∀ a ∈ t.toList, a < oramSize) : ∀ {fuel : Nat} {node lo hi : Value},
      node.toNat = t.root → t.size < fuel → ∃ res, checkBst oramSize R fuel node lo hi = some res := by
  induction t with
  | nil =>
      intro fuel node lo hi hroot hfuel
      cases fuel with
      | zero => omega
      | succ fuel =>
          have hzero : node = 0 := BitVec.eq_of_toNat_eq hroot
          exact ⟨_, by rw [checkBst, if_pos hzero]⟩
  | node a l r ihl ihr =>
      intro fuel node lo hi hroot hfuel
      obtain ⟨ha, hleft, hright, hsl, hsr⟩ := hs
      cases fuel with
      | zero => omega
      | succ fuel =>
          obtain rfl : node.toNat = a := hroot
          have hzero : node ≠ 0 := fun h0 => ha (by rw [h0]; rfl)
          rw [LinkedTree.size_node] at hfuel
          obtain ⟨⟨leftok, leftheight⟩, hl⟩ := @ihl hsl
            (fun x hx => hin x (LinkedTree.mem_node.2 (.inl hx))) fuel
            (extractLeftPtr (R.holds node.toNat).pointers) lo (R.holds node.toNat).key hleft (by omega)
          obtain ⟨⟨rightok, rightheight⟩, hr⟩ := @ihr hsr
            (fun x hx => hin x (LinkedTree.mem_node.2 (.inr (.inr hx)))) fuel
            (extractRightPtr (R.holds node.toNat).pointers) ((R.holds node.toNat).key + 1) hi hright
            (by omega)
          rw [checkBst, if_neg hzero, if_pos (hin node.toNat (by simp))]
          dsimp only
          rw [hl, hr]
          exact ⟨_, rfl⟩

/-- On a tree of keys below `2^63`, `check_bst` accepts exactly the strict search trees. -/
theorem HasTree.accepted_iff {b : BST oramSize} {t : LinkedTree} (h : b.HasTree t)
    (hkeys : ∀ a ∈ t.toList, keyOf b.oram a < 2 ^ 63) :
    b.Accepted ↔ t.Ordered (· < ·) (keyOf b.oram) := by
  have hall : ∀ a ∈ t.toList, (0 : Value).toNat ≤ keyOf b.oram a ∧
      keyOf b.oram a ≤ (~~~(0 : Value)).toNat := by
    intro a ha
    have hlt := hkeys a ha
    refine ⟨Nat.zero_le _, le_trans (Nat.le_of_lt hlt) ?_⟩
    decide
  constructor
  · rintro ⟨fuel, height, hcheck⟩
    exact ((checkBst_eq_true h.stored hkeys h.root hcheck).1 rfl).1
  · intro hord
    obtain ⟨⟨ok, height⟩, hcheck⟩ := @checkBst_isSome _ _ _ h.stored h.inside (t.size + 1) b.root 0
      (~~~0) h.root (Nat.lt_succ_self _)
    have hok : ok = true := (checkBst_eq_true h.stored hkeys h.root hcheck).2 ⟨hord, hall⟩
    exact ⟨t.size + 1, height, by rw [hcheck, hok]⟩

/-- An accepted BST is a tree, if its keys are below `2^63`. -/
theorem Accepted.exists_tree {b : BST oramSize} (h : b.Accepted)
    (hkeys : ∀ t : LinkedTree, t.root = b.root.toNat → t.Stored (leftLink b.oram) (rightLink b.oram) →
      ∀ a ∈ t.toList, keyOf b.oram a < 2 ^ 63) : ∃ t, b.HasTree t := by
  obtain ⟨fuel, height, hcheck⟩ := h
  obtain ⟨t, hroot, hs, hin⟩ := checkBst_tree hcheck
  have hord := ((checkBst_eq_true hs (hkeys t hroot.symm hs) hroot hcheck).1 rfl).1
  exact ⟨t, hroot, hs, hin, hord.nodup hs⟩

theorem TreeAt.unique {mem : Nodes} {ptr : Value} {t t' : LinkedTree}
    (h : TreeAt oramSize mem ptr t) (h' : TreeAt oramSize mem ptr t') : t = t' :=
  h.stored.unique h'.stored (h.root.symm.trans h'.root)

end BST

end Prac
