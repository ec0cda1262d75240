import Prac.AvlDelete
import Prac.AvlValid
import Prac.BstSearch

/-!
# What the searches of an AVL report

* `AVL.Shaped` — what a valid AVL is but for the order of its keys.
* `AVL.lookupRec_eq` — the recursive `lookup` reports what the descent meets, and returns nothing.
* `AVL.delRec_reports`, `AVL.delRec_unchanged` — `del` reports what it meets, and has not written where that is
  nothing.
* `AVL.lookup_returns_iff` — when a lookup returns the node.
* `AVL.del_absent` — a deletion of a key that is not stored changes nothing.
-/

namespace Prac

namespace AVL

open BST (keyOf pairOf)

variable {oramSize : Nat}

/-! ## The descent -/

/-- The AVL of a tree, whatever its keys and their order. -/
structure Shaped (b : AVL oramSize) (t : LinkedTree) : Prop where
  tree : t ≠ .nil → AvlAt (b.curMaxIndex + 1) b.oram b.root t
  zero : b.oram.holds 0 = 0
  items : b.numItems = t.size
  room : b.curMaxIndex < oramSize
  fits : b.curMaxIndex < 2 ^ 31

theorem Valid.shaped {b : AVL oramSize} {t : LinkedTree} (h : b.Valid t) : b.Shaped t :=
  ⟨h.tree, h.zero, h.items, h.room, h.fits⟩

theorem Shaped.nonempty {b : AVL oramSize} {t : LinkedTree} (h : b.Shaped t) (hcount : b.numItems ≠ 0) :
    t ≠ .nil := by
  rintro rfl
  exact hcount h.items

theorem AvlAt.lt {bound : Nat} {mem : Nodes} {ptr : Value} {t : LinkedTree} (h : AvlAt bound mem ptr t)
    (hbound : 0 < bound) : ptr.toNat < bound :=
  h.root ▸ root_inside hbound h.inside

/-- The next node of a descent; the links of the dummy node 0 lead back to it. -/
theorem AvlAt.child {bound : Nat} {mem : Nodes} (hzero : mem.holds 0 = 0) {ptr : Value} {t : LinkedTree}
    (h : AvlAt bound mem ptr t) (d : Bool) :
    AvlAt bound mem (link d (mem.pointers ptr.toNat)) (t.child d) := by
  by_cases hne : t = .nil
  · have hroot : ptr.toNat = 0 := by rw [h.root, hne, LinkedTree.root_nil]
    rw [hroot, show mem.pointers 0 = 0 from congrArg Node.pointers hzero, link_zero, hne]
    exact ⟨rfl, .nil, by simp [LinkedTree.child], List.nodup_nil⟩
  · have hbranch := LinkedTree.branch_child d hne
    rw [← h.root] at hbranch
    rw [← hbranch] at h
    exact h.near

/-! ## Lookup -/

/-- The selection of `lookup` keeps one bit more than a link has. -/
theorem selectBits_lookup (d : Bool) (pointers : Value) :
    selectBits 32 d (getAVLLeftPtr pointers) (getAVLRightPtr pointers) = link d pointers :=
  selectBits_of_lt (by decide) (lt_trans (link_lt false pointers) (by decide))
    (lt_trans (link_lt true pointers) (by decide))

/-- The recursive `lookup` reports what it meets, and never fills the node that it returns. -/
theorem lookupRec_eq {mem : Nodes} (hn : 0 < oramSize) (hzero : mem.holds 0 = 0) (key : Value) (TTL : Nat) :
    ∀ {t : LinkedTree} {ptr : Value}, AvlAt oramSize mem ptr t → ∀ (isDummy : Bool) (ret_node : Node),
      lookupRec oramSize mem key TTL ptr isDummy ret_node =
        (isDummy || t.meets (found mem key) (goRight mem key) TTL, ret_node) := by
  induction TTL with
  | zero =>
      intro t ptr _ isDummy ret_node
      rw [lookupRec, LinkedTree.meets, Bool.or_false]
  | succ TTL ih =>
      intro t ptr h isDummy ret_node
      obtain ⟨lt, hcmp⟩ := BST.compare_isKey mem key ptr.toNat
      have hstep : (isDummy ^^ (!isDummy && BST.isKey mem key ptr.toNat)) =
          (isDummy || found mem key ptr.toNat) := by
        change _ = (isDummy || BST.isKey mem key ptr.toNat)
        cases isDummy <;> simp
      rw [lookupRec]
      simp only [BST.read_flat mem (h.lt hn), Nodes.holds, hcmp, selectBits_lookup,
        select_false]
      rw [ih (h.child hzero _), hstep, LinkedTree.meets, ← h.root, Bool.or_assoc]
      rfl

theorem Shaped.lookup_eq {b : AVL oramSize} {t : LinkedTree} (h : b.Shaped t) (key : Value) (ret_node : Node) :
    b.lookup key ret_node = (t.meets (found b.oram key) (goRight b.oram key) b.numItems, ret_node) := by
  by_cases hne : t = .nil
  · rw [lookup, h.items, hne]
    rfl
  · have htree := h.tree hne
    have hroom : b.curMaxIndex + 1 ≤ oramSize := h.room
    have hwhole : AvlAt oramSize b.oram b.root t :=
      ⟨htree.root, htree.avl, fun a ha => lt_of_lt_of_le (htree.inside a ha) hroom, htree.nodup⟩
    rw [lookup, lookupRec_eq (lt_of_lt_of_le (Nat.succ_pos _) hroom) h.zero key _ hwhole, Bool.false_or]

/-- A lookup finds a key iff it is stored, and returns the key and the value of a node with it. -/
def LookupReturns (b : AVL oramSize) (t : LinkedTree) (key : Value) (ret_node : Node) : Prop :=
  ((b.lookup key ret_node).1 = true ↔ ∃ a ∈ t.toList, b.oram.key a = key) ∧
    ((b.lookup key ret_node).1 = true → ∃ a ∈ t.toList, b.oram.key a = key ∧
      ((b.lookup key ret_node).2.key, (b.lookup key ret_node).2.value) = pairOf b.oram a)

/-- **A lookup returns the matching node iff there is none, or `ret_node` held its key and value before**: the
selections are made with the flag from before the comparison, and leave `ret_node` as it was. -/
theorem lookup_returns_iff {b : AVL oramSize} {t : LinkedTree} (h : b.Valid t) {key : Value} (hkey : key ≠ 0)
    (ret_node : Node) : b.LookupReturns t key ret_node ↔
      ((∃ a ∈ t.toList, b.oram.key a = key) →
        ∃ a ∈ t.toList, b.oram.key a = key ∧ (ret_node.key, ret_node.value) = pairOf b.oram a) := by
  have hreport : t.meets (found b.oram key) (goRight b.oram key) b.numItems = true ↔
      ∃ a ∈ t.toList, b.oram.key a = key := by
    have hsearch := BST.searchTree_of_ordered h.ordered h.keys
    refine (hsearch.meets_iff h.zero key (h.items ▸ t.height_le_size)).trans ?_
    exact or_iff_left fun hzero => hkey hzero.1
  rw [LookupReturns, h.shaped.lookup_eq]
  dsimp only
  rw [hreport]
  exact and_iff_right Iff.rfl

/-- Looking for 20 in a tree with the keys 10 and 20, with a node that holds its key and value, and for 30. -/
theorem lookup_returns_iff_two : twoNodes.LookupReturns (.node 1 .nil (.node 2 .nil .nil)) 20 ⟨20, 0, 200⟩ ∧
    twoNodes.LookupReturns (.node 1 .nil (.node 2 .nil .nil)) 30 0 :=
  ⟨(lookup_returns_iff twoNodes_valid (by decide) _).2 fun _ => ⟨2, by decide, rfl, rfl⟩,
    (lookup_returns_iff twoNodes_valid (by decide) _).2 fun hstored => absurd hstored (by decide)⟩

/-- Looking for 20 there with a new node finds the key, and returns 0. -/
theorem lookup_returns_nothing : twoNodes.Valid (.node 1 .nil (.node 2 .nil .nil)) ∧
    twoNodes.lookup 20 0 = (true, 0) ∧
      ¬ twoNodes.LookupReturns (.node 1 .nil (.node 2 .nil .nil)) 20 0 := by
  have hlookup : twoNodes.lookup 20 0 = (true, 0) := by
    rw [twoNodes_valid.shaped.lookup_eq]
    decide
  refine ⟨twoNodes_valid, hlookup, fun hreturns => ?_⟩
  obtain ⟨a, _, hkey, hpair⟩ := hreturns.2 (by rw [hlookup])
  rw [hlookup] at hpair
  have hzero : (0 : Value) = 20 := (congrArg Prod.fst hpair).trans hkey
  exact absurd hzero (by decide)

/-! ## Deletion -/

section Recursion

variable {OPTIMIZED : Bool} {A : Shape oramSize} {width : Nat} {del_key : Value}

/-- A level of the recursion reports what the one below it does, and does not write if that is nothing. -/
theorem delRec_level (TTL : Nat) (ptr : Value) (found find_successor : Bool) (mem : Nodes) (ret : DelReturn) :
    let node := readNode OPTIMIZED A mem ⟨ptr, width⟩ ptr
    let left := getAVLLeftPtr node.pointers
    let right := getAVLRightPtr node.pointers
    let cmp := signedCompare (del_key - node.key)
    let F := delFlags (decide (left = 0)) (decide (right = 0)) cmp.2.1 cmp.2.2 found find_successor
    let here := delRec OPTIMIZED A width del_key (TTL + 1) ptr found find_successor (mem, ret)
    let below := delRec OPTIMIZED A width del_key TTL (selectBits 31 F.c_prime left right) F.found_prime
      F.find_successor_prime (mem, delDown ptr F ret)
    here.1.1 = below.1.1 ∧ (below.1.1 = false → here.2.1 = below.2.1) := by
  intro node left right cmp F here below
  have hhere : here = delRec OPTIMIZED A width del_key (TTL + 1) ptr found find_successor (mem, ret) := rfl
  rw [hhere, delRec]
  dsimp only
  split
  case h_1 fl mem' ret' hfalse =>
    have hbelow : below = ((false, fl), mem', ret') := hfalse
    rw [hbelow]
    exact ⟨rfl, fun _ => rfl⟩
  case h_2 fl mem' ret' htrue =>
    have hbelow : below = ((true, fl), mem', ret') := htrue
    rw [hbelow]
    exact ⟨rfl, fun hfalse => absurd hfalse (by simp)⟩

/-- Once the key was found, the recursion says so. -/
theorem delRec_true (TTL : Nat) : ∀ (ptr : Value) (find_successor : Bool) (mem : Nodes) (ret : DelReturn),
    (delRec OPTIMIZED A width del_key TTL ptr true find_successor (mem, ret)).1.1 = true := by
  induction TTL with
  | zero => exact fun _ _ _ _ => rfl
  | succ TTL ih =>
      exact fun ptr find_successor mem ret =>
        (delRec_level TTL ptr true find_successor mem ret).1.trans (ih _ _ mem _)

/-- A recursion that reports nothing found has not written. -/
theorem delRec_unchanged (TTL : Nat) :
    ∀ (ptr : Value) (found find_successor : Bool) (mem : Nodes) (ret : DelReturn),
      (delRec OPTIMIZED A width del_key TTL ptr found find_successor (mem, ret)).1.1 = false →
        (delRec OPTIMIZED A width del_key TTL ptr found find_successor (mem, ret)).2.1 = mem := by
  induction TTL with
  | zero => exact fun _ _ _ _ _ _ => rfl
  | succ TTL ih =>
      intro ptr found find_successor mem ret hfalse
      obtain ⟨hreport, hsame⟩ := @delRec_level _ OPTIMIZED A width del_key TTL ptr found find_successor mem ret
      have hbelow := hreport.symm.trans hfalse
      exact (hsame hbelow).trans (ih _ _ _ mem _ hbelow)

/-- The recursive `del` reports what it meets. -/
theorem delRec_reports {bound : Nat} (hroom : Room A width bound) (hbound : 0 < bound) {mem : Nodes}
    (hzero : mem.holds 0 = 0) (TTL : Nat) : ∀ {t : LinkedTree} {ptr : Value}, AvlAt bound mem ptr t →
      ∀ ret : DelReturn, (delRec OPTIMIZED A width del_key TTL ptr false false (mem, ret)).1.1 =
        t.meets (found mem del_key) (goRight mem del_key) TTL := by
  induction TTL with
  | zero => exact fun _ _ => rfl
  | succ TTL ih =>
      intro t ptr h ret
      obtain ⟨lt, hcmp⟩ := BST.compare_isKey mem del_key ptr.toNat
      have hreport := (@delRec_level _ OPTIMIZED A width del_key TTL ptr false false mem ret).1
      simp only [readNode_eq hroom OPTIMIZED mem (h.lt hbound), Nodes.holds, hcmp, selectBits_link] at hreport
      rw [hreport, LinkedTree.meets, ← h.root]
      change _ = (BST.isKey mem del_key ptr.toNat || _)
      cases BST.isKey mem del_key ptr.toNat with
      | true => exact delRec_true TTL _ _ mem _
      | false =>
          -- not found here: no flag is raised, and the descent follows the comparison
          rw [delFlags_pass]
          exact ih (h.child hzero _) _

end Recursion

/-- A deletion that fails changes nothing. -/
theorem del_unchanged {b : AVL oramSize} {OPTIMIZED : Bool} {key : Value} (h : (b.del OPTIMIZED key).1 = false) :
    b.del OPTIMIZED key = (false, b) := by
  have hsame := @delRec_unchanged _ OPTIMIZED (flat oramSize b.curMaxIndex) (width b.curMaxIndex) key
    (AVL_TTL b.numItems) b.root false false b.oram .init
  unfold del at h ⊢
  dsimp only at h ⊢
  split
  · rfl
  · rename_i hcount
    rw [if_neg hcount] at h
    split
    · rename_i hone
      rw [if_pos hone] at h
      split
      · rename_i heq
        rw [if_pos heq] at h
        cases h
      · rfl
    · rename_i hone
      rw [if_neg hone] at h
      split
      · rename_i mem ret hrec
        rw [hrec] at hsame
        obtain rfl : mem = b.oram := hsame rfl
        rfl
      · rename_i hrec
        rw [hrec] at h
        cases h

theorem Shaped.height_le_TTL {b : AVL oramSize} {t : LinkedTree} (h : b.Shaped t) :
    t.height ≤ AVL_TTL b.numItems := by
  by_cases hne : t = .nil
  · rw [hne]
    exact Nat.zero_le _
  · have htree := h.tree hne
    have hsize := htree.size_lt (Nat.succ_pos _)
    have hfits := h.fits
    rw [h.items]
    exact AVL.height_le_TTL htree.avl.balanced (by omega)

/-- The only node, as the read of `del` sees it. -/
theorem read_root {b : AVL oramSize} (hroom : b.curMaxIndex < oramSize)
    (hroot : b.root.toNat < b.curMaxIndex + 1) :
    b.oram.read (flat oramSize b.curMaxIndex) ⟨b.root, width b.curMaxIndex⟩ = b.oram.holds b.root.toNat :=
  readNode_eq (flat_room hroom) true b.oram hroot

/-- A deletion from at least two nodes reports what it meets. -/
theorem Shaped.del_reports {b : AVL oramSize} {t : LinkedTree} (h : b.Shaped t) (hitems : 2 ≤ b.numItems)
    (key : Value) (OPTIMIZED : Bool) : (b.del OPTIMIZED key).1 =
      t.meets (found b.oram key) (goRight b.oram key) (AVL_TTL b.numItems) := by
  have hcount : b.numItems ≠ 0 := by omega
  have htree := h.tree (h.nonempty hcount)
  rw [← @delRec_reports _ OPTIMIZED _ _ key _ (flat_room h.room) (Nat.succ_pos _) _ h.zero _ _ _ htree .init,
    del, if_neg hcount, if_neg (by omega)]
  split
  · rename_i hrec
    rw [hrec]
  · rename_i hrec
    rw [hrec]

/-- A deletion of a key that no node has fails. -/
theorem Shaped.del_fails {b : AVL oramSize} {t : LinkedTree} (h : b.Shaped t) {key : Value} (hkey : key ≠ 0)
    (hnone : ∀ a ∈ t.toList, b.oram.key a ≠ key) (OPTIMIZED : Bool) : (b.del OPTIMIZED key).1 = false := by
  have hnot : ∀ a ∈ t.toList, found b.oram key a = false := fun a ha =>
    decide_eq_false fun hkey => hnone a ha hkey.symm
  by_cases hcount : b.numItems = 0
  · rw [del, if_pos hcount]
  by_cases hone : b.numItems = 1
  · have hne := h.nonempty hcount
    have htree := h.tree hne
    have hroot : b.root.toNat < b.curMaxIndex + 1 := htree.lt (Nat.succ_pos _)
    have hcmp := congrArg Prod.fst (compare_found b.oram key b.root.toNat)
    rw [htree.root, hnot _ (LinkedTree.root_mem hne), ← htree.root] at hcmp
    rw [del, if_neg hcount, if_pos hone]
    simp only [read_root h.room hroot, Nodes.holds, hcmp]
    rfl
  · refine (h.del_reports (by omega) key OPTIMIZED).trans ?_
    refine BST.meets_eq_false h.zero hkey (List.any_eq_false.2 fun a ha => ?_) h.height_le_TTL
    exact Bool.not_eq_true _ ▸ hnot a (LinkedTree.mem_of_mem_path ha)

/-- **A deletion of a key that no node has fails and changes nothing**, in both modes. -/
theorem del_absent {b : AVL oramSize} {t : LinkedTree} (h : b.Shaped t) {key : Value} (hkey : key ≠ 0)
    (hnone : ∀ a ∈ t.toList, b.oram.key a ≠ key) (OPTIMIZED : Bool) : b.del OPTIMIZED key = (false, b) :=
  del_unchanged (h.del_fails hkey hnone OPTIMIZED)

/-- Deleting 30 from a tree with the keys 10 and 20. -/
theorem del_absent_thirty : twoNodes.del true 30 = (false, twoNodes) ∧ twoNodes.del false 30 = (false, twoNodes) :=
  ⟨del_absent twoNodes_valid.shaped (by decide) (by decide) true,
    del_absent twoNodes_valid.shaped (by decide) (by decide) false⟩

end AVL

end Prac
