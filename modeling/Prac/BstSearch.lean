import Prac.BstUnlink
import Prac.Lib.Descent

/-!
# What the searches of a BST report

`lookup` and `del` follow the comparisons for as many steps as there are items, and go on at the dummy node 0
past a leaf.

* `SearchTree` — the comparisons lead to every node; `meets_iff` — what a descent for a key meets there.
* `lookupRec_reports`, `delRec_reports` — both report what the descent meets.
* `delRec_unchanged` — a recursion that reports nothing found has not written.
* `del_absent_iff` — a deletion of a key that is not stored changes nothing, unless there is one node only.
-/

namespace Prac

namespace BST

variable {oramSize : Nat}

/-! ## The descent -/

theorem isKey_zero {mem : Nodes} (hzero : mem.holds 0 = 0) (key : Value) :
    isKey mem key 0 = decide (key = 0) := by
  rw [isKey, show mem.key 0 = 0 from congrArg Node.key hzero]

/-- The comparisons of the search for its key lead to every node, or to one with the same key. -/
def SearchTree (mem : Nodes) (t : LinkedTree) : Prop :=
  t.Guided (fun x => isKey mem (mem.key x)) fun x => isAbove mem (mem.key x)

/-- An ordered tree of keys below `2^63` is a search tree. -/
theorem searchTree_of_ordered {mem : Nodes} {t : LinkedTree} (hord : t.Ordered (· ≤ ·) (keyOf mem))
    (hkeys : ∀ a ∈ t.toList, keyOf mem a < 2 ^ 63) : SearchTree mem t := by
  refine hord.guided (fun x hx a ha => ?_) fun x hx a ha => ?_
  · rw [(isKey_isAbove_of_lt (hkeys x hx) (hkeys a ha)).1]
    exact decide_eq_true_iff
  · rw [(isKey_isAbove_of_lt (hkeys x hx) (hkeys a ha)).2]
    exact decide_eq_true_iff

/-- The path to a key comes past a node with it, if there is one. -/
theorem SearchTree.any_path_iff {mem : Nodes} {t : LinkedTree} (h : SearchTree mem t) (key : Value) :
    (t.path (isAbove mem key)).any (isKey mem key) = true ↔ ∃ a ∈ t.toList, mem.key a = key := by
  constructor
  · intro hany
    obtain ⟨a, ha, hkey⟩ := List.any_eq_true.1 hany
    exact ⟨a, LinkedTree.mem_of_mem_path ha, (of_decide_eq_true hkey).symm⟩
  · rintro ⟨a, ha, rfl⟩
    exact LinkedTree.Guided.any_path (fun _ => decide_eq_true rfl) h ha

/-- A descent for a key that no node has meets nothing. -/
theorem meets_eq_false {mem : Nodes} (hzero : mem.holds 0 = 0) {key : Value} (hkey : key ≠ 0)
    {right : Nat → Bool} {t : LinkedTree} (hnone : (t.path right).any (isKey mem key) = false) {n : Nat}
    (hn : t.height ≤ n) : t.meets (isKey mem key) right n = false := by
  rw [LinkedTree.meets_eq (le_trans t.path_length_le_height hn), hnone, isKey_zero hzero,
    decide_eq_false hkey, Bool.and_false, Bool.or_false]

/-- **What a descent for a key reports**: whether the key is stored, but for the key 0, which it also finds at
the dummy node, after the nodes on its path. -/
theorem SearchTree.meets_iff {mem : Nodes} (hzero : mem.holds 0 = 0) {t : LinkedTree} (h : SearchTree mem t)
    (key : Value) {n : Nat} (hn : t.height ≤ n) : t.meets (isKey mem key) (isAbove mem key) n = true ↔
      (∃ a ∈ t.toList, mem.key a = key) ∨ (key = 0 ∧ (t.path (isAbove mem 0)).length < n) := by
  rw [LinkedTree.meets_eq (le_trans t.path_length_le_height hn), Bool.or_eq_true, h.any_path_iff,
    Bool.and_eq_true, isKey_zero hzero, decide_eq_true_iff, decide_eq_true_iff]
  refine or_congr Iff.rfl ⟨?_, ?_⟩
  · rintro ⟨hlt, rfl⟩
    exact ⟨rfl, hlt⟩
  · rintro ⟨rfl, hlt⟩
    exact ⟨hlt, rfl⟩

theorem TreeAt.lt {mem : Nodes} {ptr : Value} {t : LinkedTree} (h : TreeAt oramSize mem ptr t)
    (hn : 0 < oramSize) : ptr.toNat < oramSize := by
  rw [h.root]
  cases t with
  | nil => exact hn
  | node a l r => exact h.inside a (by simp)

/-- The next node of a descent; the links of the dummy node 0 lead back to it. -/
theorem TreeAt.child {mem : Nodes} (hzero : mem.holds 0 = 0) {ptr : Value} {t : LinkedTree}
    (h : TreeAt oramSize mem ptr t) (d : Bool) :
    TreeAt oramSize mem (select d (extractLeftPtr (mem.pointers ptr.toNat))
      (extractRightPtr (mem.pointers ptr.toNat))) (t.child d) := by
  cases t with
  | nil =>
      have hroot : ptr.toNat = 0 := h.root
      rw [hroot, show mem.pointers 0 = 0 from congrArg Node.pointers hzero]
      refine ⟨?_, trivial, by simp [LinkedTree.child], List.nodup_nil⟩
      cases d <;> rfl
  | node a l r =>
      have hroot : ptr.toNat = a := h.root
      obtain ⟨_, hleft, hright, hl, hr⟩ := h.stored
      have hnodup := h.nodup
      rw [LinkedTree.toList_node, List.nodup_append, List.nodup_cons] at hnodup
      obtain ⟨hndl, ⟨_, hndr⟩, _⟩ := hnodup
      rw [hroot]
      cases d with
      | false => exact ⟨hleft, hl, fun x hx => h.inside x (LinkedTree.mem_node.2 (.inl hx)), hndl⟩
      | true => exact ⟨hright, hr, fun x hx => h.inside x (LinkedTree.mem_node.2 (.inr (.inr hx))), hndr⟩

/-! ## Lookup -/

/-- The dummy node is inside the memory of a BST with a node. -/
theorem HasTree.pos {b : BST oramSize} {t : LinkedTree} (h : b.HasTree t) (hne : t ≠ .nil) : 0 < oramSize :=
  lt_of_le_of_lt (Nat.zero_le _) (h.inside _ (LinkedTree.root_mem hne))

/-- The recursive `lookup` reports what it meets. -/
theorem lookupRec_reports {mem : Nodes} (hn : 0 < oramSize) (hzero : mem.holds 0 = 0) (key : Value)
    (TTL : Nat) : ∀ {t : LinkedTree} {ptr : Value}, TreeAt oramSize mem ptr t →
      ∀ (isDummy : Bool) (ret_node : Node), (lookupRec oramSize mem key TTL ptr isDummy ret_node).1 =
        (isDummy || t.meets (isKey mem key) (isAbove mem key) TTL) := by
  induction TTL with
  | zero =>
      intro t ptr _ isDummy ret_node
      exact (Bool.or_false _).symm
  | succ TTL ih =>
      intro t ptr h isDummy ret_node
      obtain ⟨lt, hcmp⟩ := compare_isKey mem key ptr.toNat
      unfold lookupRec
      simp only [read_flat mem (h.lt hn), Nodes.holds, hcmp, selectBits_extract]
      rw [ih (h.child hzero _), LinkedTree.meets, ← h.root, Bool.or_assoc]

theorem Holds.lookup_reports {b : BST oramSize} {t : LinkedTree} (h : b.Holds t) (hzero : b.oram.holds 0 = 0)
    (key : Value) (ret_node : Node) : (b.lookup key ret_node).1 =
      t.meets (isKey b.oram key) (isAbove b.oram key) b.numItems := by
  by_cases hne : t = .nil
  · rw [lookup, h.count, hne]
    rfl
  · have htree := h.tree hne
    exact (lookupRec_reports (htree.pos hne) hzero key _ htree false ret_node).trans (Bool.false_or _)

/-! ## Deletion -/

/-- A level of the recursion reports what the one below it does, and does not write if that is nothing. -/
theorem delRec_level (key : Value) (TTL : Nat) (ptr : Value) (af fs : Bool) (mem : Nodes) (ret : DelReturn) :
    let node := mem.read (flat oramSize) ((flat oramSize).index ptr)
    let left := extractLeftPtr node.pointers
    let right := extractRightPtr node.pointers
    let cmp := signedCompare (key - node.key)
    let flags := delFlags (decide (left = 0)) (decide (right = 0)) cmp.2.1 cmp.2.2 fs
    let below := delRec oramSize key TTL (selectBits 32 flags.dir left right) (af || cmp.2.1)
      ((fs || flags.c2) ^^ flags.c4) (mem, ret)
    (delRec oramSize key (TTL + 1) ptr af fs (mem, ret)).1 = below.1 ∧
      (below.1 = false → (delRec oramSize key (TTL + 1) ptr af fs (mem, ret)).2.1 = below.2.1) := by
  intro node left right cmp flags below
  rw [delRec_succ]
  dsimp only
  split
  case h_1 mem' ret' hfalse =>
    have hbelow : below = (false, mem', ret') := hfalse
    rw [hbelow]
    exact ⟨rfl, fun _ => rfl⟩
  case h_2 mem' ret' htrue =>
    have hbelow : below = (true, mem', ret') := htrue
    rw [hbelow]
    exact ⟨rfl, fun hfalse => absurd hfalse (by simp)⟩

/-- Once the key was found, the recursion says so. -/
theorem delRec_true (key : Value) (TTL : Nat) : ∀ (ptr : Value) (fs : Bool) (mem : Nodes) (ret : DelReturn),
    (delRec oramSize key TTL ptr true fs (mem, ret)).1 = true := by
  induction TTL with
  | zero => exact fun _ _ _ _ => rfl
  | succ TTL ih => exact fun ptr fs mem ret => (delRec_level key TTL ptr true fs mem ret).1.trans (ih _ _ mem ret)

/-- A recursion that reports nothing found has not written. -/
theorem delRec_unchanged (key : Value) (TTL : Nat) :
    ∀ (ptr : Value) (af fs : Bool) (mem : Nodes) (ret : DelReturn),
      (delRec oramSize key TTL ptr af fs (mem, ret)).1 = false →
        (delRec oramSize key TTL ptr af fs (mem, ret)).2.1 = mem := by
  induction TTL with
  | zero => exact fun _ _ _ _ _ _ => rfl
  | succ TTL ih =>
      intro ptr af fs mem ret hfalse
      obtain ⟨hreport, hsame⟩ := @delRec_level oramSize key TTL ptr af fs mem ret
      have hbelow := hreport.symm.trans hfalse
      exact (hsame hbelow).trans (ih _ _ _ mem ret hbelow)

/-- The recursive `del` reports what it meets. -/
theorem delRec_reports {mem : Nodes} (hn : 0 < oramSize) (hzero : mem.holds 0 = 0) (key : Value)
    (TTL : Nat) : ∀ {t : LinkedTree} {ptr : Value}, TreeAt oramSize mem ptr t → ∀ ret : DelReturn,
      (delRec oramSize key TTL ptr false false (mem, ret)).1 =
        t.meets (isKey mem key) (isAbove mem key) TTL := by
  induction TTL with
  | zero => exact fun _ _ => rfl
  | succ TTL ih =>
      intro t ptr h ret
      obtain ⟨lt, hcmp⟩ := compare_isKey mem key ptr.toNat
      have hreport := (@delRec_level oramSize key TTL ptr false false mem ret).1
      simp only [read_flat mem (h.lt hn), Nodes.holds, hcmp, selectBits_extract, Bool.false_or] at hreport
      rw [hreport, LinkedTree.meets, ← h.root]
      cases isKey mem key ptr.toNat with
      | true => exact delRec_true key TTL _ _ mem ret
      | false =>
          -- not found here: no flag is raised, and the descent follows the comparison
          rw [delFlags_c2, delFlags_c4, delFlags_dir, if_neg (by simp)]
          exact ih (h.child hzero _) ret

/-- A deletion that fails changes nothing. -/
theorem del_unchanged {b : BST oramSize} {key : Value} (h : (b.del key).1 = false) : b.del key = (false, b) := by
  have hsame := @delRec_unchanged oramSize key b.numItems b.root false false b.oram .init
  unfold del at h ⊢
  split
  · rfl
  · rename_i hcount
    rw [if_neg hcount] at h
    split
    · rename_i hone
      rw [if_pos hone] at h
      cases h
    · rename_i hone
      rw [if_neg hone] at h
      split
      · rename_i mem ret hrec
        rw [hrec] at hsame
        obtain rfl : mem = b.oram := hsame rfl
        rfl
      · rename_i hrec
        rw [hrec] at h
        cases h

/-- A deletion from at least two nodes reports what it meets. -/
theorem Holds.del_reports {b : BST oramSize} {t : LinkedTree} (h : b.Holds t) (hzero : b.oram.holds 0 = 0)
    (hitems : 2 ≤ b.numItems) (key : Value) : (b.del key).1 =
      t.meets (isKey b.oram key) (isAbove b.oram key) b.numItems := by
  have hne : t ≠ .nil := by
    rintro rfl
    have hcount := h.count
    rw [LinkedTree.size_nil] at hcount
    omega
  have htree := h.tree hne
  rw [← delRec_reports (htree.pos hne) hzero key _ htree .init, del, if_neg (by omega), if_neg (by omega)]
  dsimp only
  split
  · rename_i hrec
    rw [hrec]
  · rename_i hrec
    rw [hrec]

/-- A deletion of a key that is not on its path fails and changes nothing, unless there is one node only. -/
theorem Holds.del_not_found {b : BST oramSize} {t : LinkedTree} (h : b.Holds t) (hzero : b.oram.holds 0 = 0)
    {key : Value} (hkey : key ≠ 0) (hnone : (t.path (isAbove b.oram key)).any (isKey b.oram key) = false)
    (hone : b.numItems ≠ 1) : b.del key = (false, b) := by
  by_cases hcount : b.numItems = 0
  · rw [del, if_pos hcount]
  · refine del_unchanged ((h.del_reports hzero (by omega) key).trans ?_)
    exact meets_eq_false hzero hkey hnone (h.count ▸ t.height_le_size)

/-- So does one of a key that no node has. -/
theorem del_missing {b : BST oramSize} {t : LinkedTree} (h : b.Holds t) (hzero : b.oram.holds 0 = 0)
    {key : Value} (hkey : key ≠ 0) (hnone : ∀ a ∈ t.toList, b.oram.key a ≠ key) (hone : b.numItems ≠ 1) :
    b.del key = (false, b) := by
  refine h.del_not_found hzero hkey (List.any_eq_false.2 fun a ha => ?_) hone
  exact fun hfound => hnone a (LinkedTree.mem_of_mem_path ha) (of_decide_eq_true hfound).symm

/-- **A deletion of a key that no node has changes nothing iff the BST does not have exactly one node**: the
only node is deleted whatever its key. -/
theorem del_absent_iff {b : BST oramSize} {t : LinkedTree} (h : b.Holds t) (hzero : b.oram.holds 0 = 0)
    {key : Value} (hkey : key ≠ 0) (hnone : ∀ a ∈ t.toList, b.oram.key a ≠ key) :
    b.del key = (false, b) ↔ b.numItems ≠ 1 := by
  refine ⟨fun hdel hone => ?_, del_missing h hzero hkey hnone⟩
  have hreport : (b.del key).1 = true := by rw [del, if_neg (by omega), if_pos hone]
  rw [hdel] at hreport
  cases hreport

/-- Deleting 12 from a tree with the keys 10 and 13. -/
theorem del_absent_iff_twelve : twoNodes.del 12 = (false, twoNodes) :=
  (del_absent_iff (t := .node 1 .nil (.node 3 .nil .nil)) ⟨rfl, fun _ => ⟨rfl, by decide, by decide, by decide⟩⟩
    rfl (by decide) (by decide)).2 (by decide)

/-- The key 10 at the root, and nothing else. -/
def oneNode : BST 8 where
  oram := {
    key := fun a => if a = 1 then 10 else 0
    pointers := fun _ => 0
    value := fun a => if a = 1 then 100 else 0 }
  root := 1
  numItems := 1
  emptyLocations := []

/-- Deleting 12 deletes the 10. -/
theorem del_deletes_another : oneNode.Holds (.node 1 .nil .nil) ∧ oneNode.oram.holds 0 = 0 ∧
    (∀ a ∈ (LinkedTree.node 1 .nil .nil).toList, oneNode.oram.key a ≠ 12) ∧
      (oneNode.del 12).1 = true ∧ (oneNode.del 12).2.numItems = 0 ∧ (oneNode.del 12).2.oram.key 1 = 0 :=
  ⟨⟨rfl, fun _ => ⟨rfl, by decide, by decide, by decide⟩⟩, rfl, by decide, rfl, rfl, by decide⟩

end BST

end Prac
