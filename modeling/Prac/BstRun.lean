import Prac.BstDelete

/-!
# Runs of BST insertions and deletions

* `Slots` — the addresses of the nodes and the empty locations are all different, and the next fresh
  address is beyond them.
* `Sound` — the invariant of a run; `Sound.insert` and `Sound.del` — the steps keep it.
* `Formed` — what is left of it where an empty location may be in use, with the same lemmas.
* `Reached` — the states of the runs in which every deletion leaves other nodes with its key alone.
* `del_exact` — there a deletion loses and duplicates nothing.
-/

namespace Prac

namespace BST

variable {oramSize : Nat}

/-! ## The invariant -/

/-- The addresses in use and the empty locations. -/
def addresses (b : BST oramSize) (t : LinkedTree) : List Nat :=
  t.toList ++ b.emptyLocations.map BitVec.toNat

/-- No address is used twice, and all are below the next fresh one. -/
structure Slots (b : BST oramSize) (t : LinkedTree) : Prop where
  nodup : (b.addresses t).Nodup
  ne_zero : ∀ a ∈ b.addresses t, a ≠ 0
  le : ∀ a ∈ b.addresses t, a ≤ (b.addresses t).length + 1
  inside : ∀ a ∈ b.addresses t, a < oramSize
  link : ∀ a ∈ b.addresses t, a < 2 ^ 32

/-- The addresses are below the next fresh one, whether shared or not. -/
structure Placed (b : BST oramSize) (t : LinkedTree) : Prop where
  ne_zero : ∀ a ∈ b.addresses t, a ≠ 0
  le : ∀ a ∈ b.addresses t, a ≤ (b.addresses t).length + 1
  inside : ∀ a ∈ b.addresses t, a < oramSize
  link : ∀ a ∈ b.addresses t, a < 2 ^ 32

/-- The invariant of a run. -/
structure Sound (b : BST oramSize) (t : LinkedTree) : Prop where
  holds : b.Holds t
  zero : b.oram.holds 0 = 0
  keys : KeysOk b.oram t
  ordered : t.Ordered (· ≤ ·) (keyOf b.oram)
  slots : b.Slots t

/-- What of the invariant is left where an empty location may be in use. -/
structure Formed (b : BST oramSize) (t : LinkedTree) : Prop where
  holds : b.Holds t
  zero : b.oram.holds 0 = 0
  keys : KeysOk b.oram t
  ordered : t.Ordered (· ≤ ·) (keyOf b.oram)
  placed : b.Placed t

theorem Sound.formed {b : BST oramSize} {t : LinkedTree} (h : b.Sound t) : b.Formed t :=
  ⟨h.holds, h.zero, h.keys, h.ordered, h.slots.ne_zero, h.slots.le, h.slots.inside, h.slots.link⟩

theorem Formed.sound {b : BST oramSize} {t : LinkedTree} (h : b.Formed t) (hnodup : (b.addresses t).Nodup) :
    b.Sound t :=
  ⟨h.holds, h.zero, h.keys, h.ordered, hnodup, h.placed.ne_zero, h.placed.le, h.placed.inside, h.placed.link⟩

theorem Sound.init : (init : BST oramSize).Sound .nil := by
  refine ⟨⟨rfl, fun h => absurd rfl h⟩, rfl, ?_, trivial, ?_⟩
  · intro a ha
    simp at ha
  · refine ⟨List.nodup_nil, ?_, ?_, ?_, ?_⟩ <;>
      · intro a ha
        simp [addresses, BST.init] at ha

/-- The tree is determined by the state. -/
theorem Holds.unique {b : BST oramSize} {t t' : LinkedTree} (h : b.Holds t) (h' : b.Holds t') :
    t = t' := by
  by_cases hne : t = .nil
  · have hsize := h'.count
    rw [h.count, hne, LinkedTree.size_nil] at hsize
    cases t' with
    | nil => exact hne
    | node a l r =>
        rw [LinkedTree.size_node] at hsize
        omega
  · by_cases hne' : t' = .nil
    · have hsize := h.count
      rw [h'.count, hne', LinkedTree.size_nil] at hsize
      cases t with
      | nil => exact absurd rfl hne
      | node a l r =>
          rw [LinkedTree.size_node] at hsize
          omega
    · exact (h.tree hne).unique (h'.tree hne')

/-- The node that is inserted, as `newnode` prepares it. -/
def newNode (key value : Value) : Node := ⟨key, 0, value⟩

/-- What an insertion is called with: a key in range, and room for one more address, which is an
`int`. -/
structure Insertable (b : BST oramSize) (key : Value) : Prop where
  key_ne_zero : key ≠ 0
  key_lt : key.toNat < 2 ^ 63
  room : b.numItems + 2 < 2 ^ 31

theorem Placed.perm {b b' : BST oramSize} {t t' : LinkedTree} (h : b.Placed t)
    (hperm : (b'.addresses t').Perm (b.addresses t)) : b'.Placed t' := by
  refine ⟨?_, ?_, ?_, ?_⟩ <;> intro a ha <;> rw [hperm.mem_iff] at ha
  · exact h.ne_zero a ha
  · rw [hperm.length_eq]
    exact h.le a ha
  · exact h.inside a ha
  · exact h.link a ha

theorem Placed.cons {b b' : BST oramSize} {t t' : LinkedTree} (h : b.Placed t) {s : Nat}
    (hperm : (b'.addresses t').Perm (s :: b.addresses t)) (hzero : s ≠ 0)
    (hle : s ≤ (b.addresses t).length + 2) (hlt : s < oramSize) (hlink : s < 2 ^ 32) :
    b'.Placed t' := by
  refine ⟨?_, ?_, ?_, ?_⟩ <;> intro a ha <;>
    rw [hperm.mem_iff] at ha <;> rcases List.mem_cons.1 ha with rfl | ha
  · exact hzero
  · exact h.ne_zero a ha
  · rw [hperm.length_eq, List.length_cons]
    exact hle
  · have := h.le a ha
    rw [hperm.length_eq, List.length_cons]
    omega
  · exact hlt
  · exact h.inside a ha
  · exact hlink
  · exact h.link a ha

/-- The address of the next node: that of the root of an empty BST, the top one of the empty locations, or a
fresh one. -/
theorem Placed.slot_cases {b : BST oramSize} {t : LinkedTree} (h : b.Placed t) (ht : b.Holds t) :
    (b.numItems = 0 ∧ b.slot = 1) ∨
    (b.numItems ≠ 0 ∧ ∃ addr rest, b.emptyLocations = addr :: rest ∧ b.slot = addr.toNat) ∨
    (b.numItems ≠ 0 ∧ b.emptyLocations = [] ∧ b.slot = b.numItems + 2 ∧ b.slot ∉ b.addresses t ∧
      (b.addresses t).length = b.numItems) := by
  unfold slot
  by_cases hcount : b.numItems = 0
  · exact .inl ⟨hcount, if_pos hcount⟩
  · rw [if_neg hcount]
    cases hlocations : b.emptyLocations with
    | cons addr rest => exact .inr (.inl ⟨hcount, addr, rest, rfl, rfl⟩)
    | nil =>
        have hlength : (b.addresses t).length = b.numItems := by
          rw [addresses, hlocations, List.map_nil, List.append_nil, ht.count, LinkedTree.size]
        refine .inr (.inr ⟨hcount, rfl, ?_, fun hmem => ?_, hlength⟩)
        · dsimp only
          omega
        · have := h.le _ hmem
          dsimp only at this
          omega

/-- The slot is free if it is not taken from an empty location in use. -/
theorem Placed.slotFree {b : BST oramSize} {t : LinkedTree} (h : b.Placed t) (ht : b.Holds t)
    (hapart : b.numItems ≠ 0 → ∀ addr ∈ b.emptyLocations.head?, addr.toNat ∉ t.toList)
    (hlt : b.slot < oramSize) (hroom : b.numItems + 2 < 2 ^ 31) : b.SlotFree t := by
  rcases h.slot_cases ht with ⟨hcount, hslot⟩ | ⟨hcount, addr, rest, hlocations, hslot⟩ |
    ⟨_, _, hslot, hnew, _⟩
  · have hnil : t.toList = [] := List.length_eq_zero_iff.1 (ht.count.symm.trans hcount)
    refine ⟨by omega, ?_, hlt, by omega⟩
    rw [hnil]
    exact List.not_mem_nil
  · have haddr : b.slot ∈ b.addresses t := by
      refine List.mem_append_right _ ?_
      rw [hlocations, hslot]
      exact List.mem_cons_self
    refine ⟨h.ne_zero _ haddr, ?_, hlt, h.link _ haddr⟩
    rw [hslot]
    exact hapart hcount addr (by rw [hlocations]; rfl)
  · exact ⟨by omega, fun hin => hnew (List.mem_append_left _ hin), hlt, by omega⟩

/-- No empty location of a sound state is in use. -/
theorem Slots.head_not_mem {b : BST oramSize} {t : LinkedTree} (h : b.Slots t) {addr : Value}
    (haddr : addr ∈ b.emptyLocations.head?) : addr.toNat ∉ t.toList := fun ht =>
  (List.nodup_append.1 h.nodup).2.2 _ ht _ (List.mem_map_of_mem (List.mem_of_mem_head? haddr)) rfl

/-- An insertion that the memory has room for. -/
theorem insert_slot_lt {b b' : BST oramSize} {t : LinkedTree} (h : b.Placed t) {node : Node}
    (hins : b.insert node = some b') : b.slot < oramSize := by
  unfold insert at hins
  unfold slot
  by_cases hcount : b.numItems = 0
  · rw [if_pos hcount] at hins ⊢
    split at hins
    · assumption
    · cases hins
  · rw [if_neg hcount] at hins ⊢
    cases hlocations : b.emptyLocations with
    | cons addr rest =>
        refine h.inside _ (List.mem_append_right _ ?_)
        rw [hlocations]
        exact List.mem_cons_self
    | nil =>
        rw [hlocations] at hins
        dsimp only at hins ⊢
        split at hins
        · assumption
        · cases hins

/-- The addresses after an insertion: the top one of the empty locations is used, or one more. -/
theorem Placed.addresses_insert {b b' : BST oramSize} {t t' : LinkedTree} (h : b.Placed t) (ht : b.Holds t)
    (htree : t'.toList.Perm (b.slot :: t.toList))
    (hlocations : b'.emptyLocations = if b.numItems = 0 then b.emptyLocations else b.emptyLocations.tail) :
    (b'.addresses t').Perm
      (if b.numItems = 0 ∨ b.emptyLocations = [] then b.slot :: b.addresses t else b.addresses t) := by
  have happend : (b'.addresses t').Perm (b.slot :: (t.toList ++ b'.emptyLocations.map BitVec.toNat)) :=
    htree.append_right _
  rcases h.slot_cases ht with ⟨hcount, _⟩ | ⟨hcount, addr, rest, hempty, hslot⟩ | ⟨_, hempty, _⟩
  · rw [if_pos (.inl hcount)]
    rwa [hlocations, if_pos hcount] at happend
  · rw [if_neg (by simp [hcount, hempty])]
    rw [hlocations, if_neg hcount, hempty, List.tail_cons] at happend
    refine happend.trans ?_
    rw [addresses, hempty, List.map_cons, ← hslot]
    exact List.perm_middle.symm
  · rw [if_pos (.inr hempty)]
    have hnil : b'.emptyLocations = b.emptyLocations := by
      rw [hlocations, hempty]
      split <;> rfl
    rwa [hnil] at happend

theorem Placed.insert {b b' : BST oramSize} {t t' : LinkedTree} (h : b.Placed t) (ht : b.Holds t)
    (hfree : b.SlotFree t) (hperm : (b'.addresses t').Perm
      (if b.numItems = 0 ∨ b.emptyLocations = [] then b.slot :: b.addresses t else b.addresses t)) :
    b'.Placed t' := by
  by_cases hnew : b.numItems = 0 ∨ b.emptyLocations = []
  · rw [if_pos hnew] at hperm
    refine h.cons hperm hfree.ne_zero ?_ hfree.lt hfree.link
    rcases h.slot_cases ht with ⟨_, hslot⟩ | ⟨hcount, addr, rest, hempty, _⟩ | ⟨_, _, hslot, _, hlength⟩
    · omega
    · exact absurd hnew (by simp [hcount, hempty])
    · omega
  · rw [if_neg hnew] at hperm
    exact h.perm hperm

/-- An insertion into a free slot adds the pair. -/
theorem Formed.insert {b b' : BST oramSize} {t : LinkedTree} (h : b.Formed t) {key value : Value}
    (hroom : b.Insertable key) (hfree : b.SlotFree t) (hins : b.insert (newNode key value) = some b') :
    b'.Formed (b.treeInsert t key) ∧ pairs b'.oram (b.treeInsert t key) = (key, value) ::ₘ pairs b.oram t ∧
      (b'.addresses (b.treeInsert t key)).Perm
        (if b.numItems = 0 ∨ b.emptyLocations = [] then b.slot :: b.addresses t else b.addresses t) := by
  have hlt : ∀ a ∈ t.toList, keyOf b.oram a < 2 ^ 63 := fun a ha => (h.keys a ha).2
  obtain ⟨b₁, hins₁, hholds, hsame, hkey, hvalue, hzero, hlocations⟩ :=
    @insert_spec _ _ _ h.holds hlt hfree (newNode key value) rfl hroom.key_lt
  obtain rfl : b₁ = b' := Option.some.inj (hins₁.symm.trans hins)
  have htree : (b.treeInsert t key).toList.Perm (b.slot :: t.toList) := LinkedTree.perm_insertAt t
  have hperm := h.placed.addresses_insert h.holds htree hlocations
  refine ⟨⟨hholds, hzero.trans h.zero, fun a ha => ?_, ?_, ?_⟩, pairs_insertAt hsame hkey hvalue, hperm⟩
  · rcases LinkedTree.mem_insertAt.1 ha with rfl | ha
    · rw [keyOf, hkey]
      exact ⟨hroom.key_ne_zero, hroom.key_lt⟩
    · rw [keyOf, (hsame a ha).1]
      exact h.keys a ha
  · exact ordered_treeInsert (fun _ _ => le_of_lt) h.ordered (fun a ha => (hsame a ha).1) hkey
  · exact h.placed.insert h.holds hfree hperm

theorem Sound.slotFree {b b' : BST oramSize} {t : LinkedTree} (h : b.Sound t) (hroom : b.numItems + 2 < 2 ^ 31)
    {node : Node} (hins : b.insert node = some b') : b.SlotFree t :=
  h.formed.placed.slotFree h.holds (fun _ _ haddr => h.slots.head_not_mem haddr)
    (insert_slot_lt h.formed.placed hins) hroom

/-- An insertion keeps the invariant and adds the pair, unless the tree was emptied before. -/
theorem Sound.insert {b b' : BST oramSize} {t : LinkedTree} (h : b.Sound t) {key value : Value}
    (hroom : b.Insertable key) (hempty : b.numItems = 0 → b.emptyLocations = [])
    (hins : b.insert (newNode key value) = some b') : b'.Sound (b.treeInsert t key) ∧
      b.slot ∉ t.toList ∧
      pairs b'.oram (b.treeInsert t key) = (key, value) ::ₘ pairs b.oram t := by
  have hfree := h.slotFree hroom.room hins
  obtain ⟨hformed, hpairs, hperm⟩ := h.formed.insert hroom hfree hins
  refine ⟨hformed.sound (hperm.nodup_iff.2 ?_), hfree.fresh, hpairs⟩
  by_cases hnew : b.numItems = 0 ∨ b.emptyLocations = []
  · have hnil : b.emptyLocations = [] := hnew.elim hempty id
    rw [if_pos hnew]
    refine List.nodup_cons.2 ⟨?_, h.slots.nodup⟩
    rw [addresses, hnil, List.map_nil, List.append_nil]
    exact hfree.fresh
  · rw [if_neg hnew]
    exact h.slots.nodup

/-- A deletion moves the address that it vacates to the empty locations. -/
theorem TookOut.addresses_perm {b b' : BST oramSize} {t s t' : LinkedTree} (h : TookOut b b' s t')
    (hperm : t.toList.Perm (s.vacated :: t'.toList)) : (b'.addresses t').Perm (b.addresses t) := by
  obtain ⟨empty_loc, hempty, hloc⟩ := h.empty
  rw [addresses, addresses, hempty, List.map_cons, hloc]
  exact List.perm_middle.trans (hperm.append_right _).symm

/-- A deletion from at least two nodes, where the recursion leaves other nodes with the key alone: exactly one
pair with the key is gone, if there is one. -/
theorem Formed.del {b : BST oramSize} {t : LinkedTree} (h : b.Formed t) {key : Value} (hkey0 : key ≠ 0)
    (hkey : key.toNat < 2 ^ 63) (hitems : 2 ≤ b.numItems)
    (hquiet : QuietBelow b.oram key (b.treeFind t key)) : ∃ b' t', (b.del key).2 = b' ∧ b'.Formed t' ∧
      (b'.addresses t').Perm (b.addresses t) ∧ b'.numItems ≠ 0 ∧
      ((b.del key).1 = true ↔ ∃ p ∈ pairs b.oram t, p.1 = key) ∧
      ((b.del key).1 = true → ∃ p, p.1 = key ∧ pairs b.oram t = p ::ₘ pairs b'.oram t') ∧
      ((b.del key).1 = false → pairs b'.oram t' = pairs b.oram t) := by
  have hsearch : b.Searchable t key := ⟨h.holds, h.zero, fun a ha => (h.keys a ha).2, hkey0, hkey⟩
  have hiff := @treeFind_eq_nil_iff _ b t key h.ordered
  by_cases hfind : b.treeFind t key = .nil
  · have hdel := del_missing h.holds h.zero hkey0
      (fun a ha => hiff.1 hfind _ (mem_pairs.2 ⟨a, ha, rfl⟩)) (by omega)
    rw [hdel]
    refine ⟨b, t, rfl, h, .refl _, by omega, iff_of_false (by simp) ?_, by simp, fun _ => rfl⟩
    rintro ⟨p, hp, hpk⟩
    exact hiff.1 hfind p hp hpk
  · obtain ⟨b', hdel, htook⟩ := del_spec hsearch hitems h.ordered hfind hquiet
    have hne : t ≠ .nil := by
      rintro rfl
      exact hfind rfl
    have hperm := treeDel_perm hfind
    have hpairs := htook.pairs_eq (h.holds.tree hne).nodup hfind
    have hroot : (pairOf b.oram (b.treeFind t key).root).1 = key := treeFind_key hfind
    have hmoved : ∀ a ∈ (b.treeDel t key).toList, ∃ x ∈ t.toList, b'.oram.key a = b.oram.key x := by
      intro a ha
      refine ⟨_, ?_, congrArg Prod.fst (htook.moved a ha)⟩
      split
      · exact hperm.mem_iff.2 List.mem_cons_self
      · exact hperm.mem_iff.2 (List.mem_cons_of_mem _ ha)
    have hitems' := htook.items
    have haddresses := htook.addresses_perm hperm
    rw [hdel]
    refine ⟨b', _, rfl, ⟨htook.holds, htook.zero, fun a ha => ?_, ?_, h.placed.perm haddresses⟩, haddresses,
      by omega, iff_of_true rfl ⟨_, ?_, hroot⟩, fun _ => ⟨_, hroot, hpairs⟩, by simp⟩
    · obtain ⟨x, hx, hax⟩ := hmoved a ha
      rw [keyOf, hax]
      exact h.keys x hx
    · rw [htook.ordered_iff (fun _ _ h => h) (h.holds.tree hne).nodup hfind h.ordered]
      exact successorRelates_le h.ordered.find
    · rw [hpairs]
      exact Multiset.mem_cons_self _ _

/-- The deletion of the only node leaves an empty tree, whatever the key. -/
theorem Holds.del_last {b : BST oramSize} {t : LinkedTree} (h : b.Holds t) (hzero : b.oram.holds 0 = 0)
    (hitems : b.numItems = 1) (key : Value) : (b.del key).2.Holds .nil ∧ (b.del key).2.oram.holds 0 = 0 ∧
      ((b.del key).2.addresses .nil).Perm (b.addresses t) := by
  have hleaf := LinkedTree.eq_leaf (h.count.symm.trans hitems)
  have hne : t ≠ .nil := by
    rw [hleaf]
    simp
  have htree := h.tree hne
  have hroot : t.root ∈ t.toList := LinkedTree.root_mem hne
  have hdel : (b.del key).2 = { b with
      oram := b.oram.write (flat oramSize) ((flat oramSize).index b.root) 0
      numItems := 0, emptyLocations := b.root :: b.emptyLocations } := by
    rw [BST.del, if_neg (by omega), if_pos hitems]
  have hinside : b.root.toNat < oramSize := htree.root ▸ htree.inside _ hroot
  have h0 : 0 ≠ b.root.toNat := fun h0 => htree.stored.ne_zero _ hroot (htree.root ▸ h0.symm)
  rw [hdel]
  refine ⟨⟨rfl, fun hnil => absurd rfl hnil⟩, ?_, ?_⟩
  · rw [Nodes.write_of_reaches (Shape.whole_reaches hinside)]
    simp only [Nodes.holds, Function.update_of_ne h0]
    exact hzero
  · rw [addresses, addresses, hleaf, List.map_cons, htree.root]
    exact .refl _

theorem Formed.del_last {b : BST oramSize} {t : LinkedTree} (h : b.Formed t) (hitems : b.numItems = 1)
    (key : Value) :
    (b.del key).2.Formed .nil ∧ ((b.del key).2.addresses .nil).Perm (b.addresses t) := by
  obtain ⟨hholds, hzero, haddresses⟩ := h.holds.del_last h.zero hitems key
  exact ⟨⟨hholds, hzero, fun a ha => absurd ha (by simp), trivial, h.placed.perm haddresses⟩, haddresses⟩

/-- Such a deletion keeps the invariant. -/
theorem Sound.del {b : BST oramSize} {t : LinkedTree} (h : b.Sound t) {key : Value} (hkey0 : key ≠ 0)
    (hkey : key.toNat < 2 ^ 63) (hitems : 2 ≤ b.numItems)
    (hquiet : QuietBelow b.oram key (b.treeFind t key)) : ∃ b' t', (b.del key).2 = b' ∧ b'.Sound t' ∧
      b'.numItems ≠ 0 ∧ ((b.del key).1 = true ↔ ∃ p ∈ pairs b.oram t, p.1 = key) ∧
      ((b.del key).1 = true → ∃ p, p.1 = key ∧ pairs b.oram t = p ::ₘ pairs b'.oram t') ∧
      ((b.del key).1 = false → pairs b'.oram t' = pairs b.oram t) := by
  obtain ⟨b', t', hb', hformed, hperm, hrest⟩ := h.formed.del hkey0 hkey hitems hquiet
  exact ⟨b', t', hb', hformed.sound (hperm.nodup_iff.2 h.slots.nodup), hrest⟩

/-! ## Runs -/

/-- Nodes other than the deleted one and its successor are left alone by the recursion: on its path
below them no node with two children holds the key. -/
def LeavesOthers (b : BST oramSize) (key : Value) : Prop :=
  ∀ t, b.Holds t → QuietBelow b.oram key (b.treeFind t key)

/-- The states of the runs from an empty tree that do not empty it, in which every deletion satisfies
`P`. -/
inductive Reached (P : BST oramSize → Value → Prop) : BST oramSize → Prop
  | init : Reached P init
  | insert {b b' : BST oramSize} (key value : Value) : Reached P b → b.Insertable key →
      b.insert (newNode key value) = some b' → Reached P b'
  | del {b : BST oramSize} (key : Value) : Reached P b → key ≠ 0 → key.toNat < 2 ^ 63 →
      b.numItems ≠ 1 → P b key → Reached P (b.del key).2

theorem Reached.sound {b : BST oramSize} (h : b.Reached LeavesOthers) :
    (∃ t, b.Sound t) ∧ (b.numItems = 0 → b.emptyLocations = []) := by
  induction h with
  | init => exact ⟨⟨_, Sound.init⟩, fun _ => rfl⟩
  | @insert b b' key value _ hroom hins ih =>
      obtain ⟨⟨t, ht⟩, hempty⟩ := ih
      obtain ⟨hsound, _, _⟩ := ht.insert hroom hempty hins
      refine ⟨⟨_, hsound⟩, fun hcount => ?_⟩
      have hsize := hsound.holds.count
      have hlength : (b.treeInsert t key).size = _ := (LinkedTree.perm_insertAt t).length_eq
      rw [hcount, hlength, List.length_cons] at hsize
      omega
  | @del b key _ hkey0 hkey hone hquiet ih =>
      obtain ⟨⟨t, ht⟩, hempty⟩ := ih
      by_cases hcount : b.numItems = 0
      · have hdel : b.del key = (false, b) := by rw [BST.del, if_pos hcount]
        rw [hdel]
        exact ⟨⟨t, ht⟩, hempty⟩
      · obtain ⟨b', t', hb', hsound, hitems, _⟩ :=
          ht.del hkey0 hkey (by omega) (hquiet t ht.holds)
        rw [hb']
        exact ⟨⟨t', hsound⟩, fun h0 => absurd h0 hitems⟩

/-- **Deletions lose and duplicate nothing, in every run in which each leaves other nodes with its key
alone.** -/
theorem del_exact {b : BST oramSize} (hreached : b.Reached LeavesOthers) {key : Value} (hkey0 : key ≠ 0)
    (hkey : key.toNat < 2 ^ 63) (hitems : 2 ≤ b.numItems) (hleaves : b.LeavesOthers key) :
    ∃ t t', b.Holds t ∧ (b.del key).2.Holds t' ∧
      ((b.del key).1 = true ↔ ∃ p ∈ pairs b.oram t, p.1 = key) ∧
      ((b.del key).1 = true →
        ∃ p, p.1 = key ∧ pairs b.oram t = p ::ₘ pairs (b.del key).2.oram t') ∧
      ((b.del key).1 = false → pairs (b.del key).2.oram t' = pairs b.oram t) := by
  obtain ⟨⟨t, ht⟩, _⟩ := hreached.sound
  obtain ⟨b', t', rfl, hsound, _, hiff, hgone, hsame⟩ := ht.del hkey0 hkey hitems (hleaves t ht.holds)
  exact ⟨t, t', ht.holds, hsound.holds, hiff, hgone, hsame⟩

/-! ## A run that loses a node -/

/-- The BST after an insertion that succeeds. -/
def inserted (b : BST oramSize) (key value : Value) : BST oramSize :=
  (b.insert (newNode key value)).getD b

theorem Reached.inserted {P : BST oramSize → Value → Prop} {b : BST oramSize} (h : b.Reached P)
    (key value : Value) (hroom : b.Insertable key)
    (hsome : (b.insert (newNode key value)).isSome = true) : (b.inserted key value).Reached P := by
  obtain ⟨b', hins⟩ := Option.isSome_iff_exists.1 hsome
  have heq : b.inserted key value = b' := by rw [BST.inserted, hins, Option.getD_some]
  rw [heq]
  exact h.insert key value hroom hins

/-- The keys 20, 10 and 5 on a path to the left. -/
def pathOfThree : BST 8 := ((init.inserted 20 1).inserted 10 2).inserted 5 3

theorem pathOfThree_reached (P : BST 8 → Value → Prop) : pathOfThree.Reached P := by
  have hone : (init.inserted 20 1 : BST 8).Reached P :=
    Reached.init.inserted 20 1 ⟨by decide, by decide, by decide⟩ rfl
  have htwo : ((init.inserted 20 1).inserted 10 2 : BST 8).Reached P :=
    hone.inserted 10 2 ⟨by decide, by decide, by decide⟩ rfl
  exact htwo.inserted 5 3 ⟨by decide, by decide, by decide⟩ rfl

/-- Two more nodes with the key 20 on the right of 10, which is then deleted: one of them takes its
place, with the other on its right. -/
def equalOnRight : BST 8 := (((pathOfThree.inserted 20 4).inserted 20 5).del 10).2

theorem equalOnRight_reached : equalOnRight.Reached fun _ _ => True := by
  have hfour : (pathOfThree.inserted 20 4).Reached fun _ _ => True :=
    (pathOfThree_reached _).inserted 20 4 ⟨by decide, by decide, by decide⟩ (by decide +kernel)
  have hfive : ((pathOfThree.inserted 20 4).inserted 20 5).Reached fun _ _ => True :=
    hfour.inserted 20 5 ⟨by decide, by decide, by decide +kernel⟩ (by decide +kernel)
  exact hfive.del 10 (by decide) (by decide) (by decide +kernel) trivial

/-- Deleting 20 then takes out the root, and on the way also the successor of the other 20. -/
theorem del_loses_two : ∃ t t', equalOnRight.Reached (fun _ _ => True) ∧ equalOnRight.Holds t ∧
    2 ≤ equalOnRight.numItems ∧ (equalOnRight.del 20).1 = true ∧
    (equalOnRight.del 20).2.HasTree t' ∧
    pairs equalOnRight.oram t = {(5, 3), (20, 5), (20, 4), (20, 1)} ∧
    pairs (equalOnRight.del 20).2.oram t' = {(5, 3), (20, 5)} ∧
    ∀ p, pairs equalOnRight.oram t ≠ p ::ₘ pairs (equalOnRight.del 20).2.oram t' := by
  have hbefore : pairs equalOnRight.oram (.node 1 (.node 3 (.node 4 .nil .nil) (.node 5 .nil .nil)) .nil) =
      {(5, 3), (20, 5), (20, 4), (20, 1)} := by decide +kernel
  have hafter : pairs (equalOnRight.del 20).2.oram (.node 3 (.node 4 .nil .nil) .nil) =
      {(5, 3), (20, 5)} := by decide +kernel
  refine ⟨_, _, equalOnRight_reached, ⟨?_, fun _ => ⟨?_, ?_, ?_, ?_⟩⟩, ?_, ?_, ⟨?_, ?_, ?_, ?_⟩, hbefore,
    hafter, fun p hp => ?_⟩
  · decide +kernel
  · decide +kernel
  · decide +kernel
  · decide
  · decide
  · decide +kernel
  · decide +kernel
  · decide +kernel
  · decide +kernel
  · decide
  · decide
  · rw [hbefore, hafter] at hp
    have hcard := congrArg Multiset.card hp
    rw [Multiset.card_cons] at hcard
    exact absurd hcard (by decide)

/-- In the path of three nodes, 10 has nothing but 5 below it. -/
theorem del_exact_ten : ∃ t t', pathOfThree.Holds t ∧ (pathOfThree.del 10).2.Holds t' ∧
    ∃ p, p.1 = 10 ∧ pairs pathOfThree.oram t = p ::ₘ pairs (pathOfThree.del 10).2.oram t' := by
  have hholds : pathOfThree.Holds (.node 1 (.node 3 (.node 4 .nil .nil) .nil) .nil) := by
    refine ⟨by decide +kernel, fun _ => ⟨by decide +kernel, by decide +kernel, by decide, by decide⟩⟩
  have hleaves : pathOfThree.LeavesOthers 10 := by
    intro t ht
    obtain rfl := ht.unique hholds
    have hfind : pathOfThree.treeFind (.node 1 (.node 3 (.node 4 .nil .nil) .nil) .nil) 10 =
        .node 3 (.node 4 .nil .nil) .nil := by decide +kernel
    have hkey : keyOf pathOfThree.oram 4 = 5 := by decide +kernel
    rw [hfind, QuietBelow, if_pos (.inr rfl)]
    refine ⟨quiet_of_ne fun a ha => ?_, trivial⟩
    rw [List.mem_singleton.1 ha, hkey]
    decide
  obtain ⟨t, t', ht, ht', _, hgone, _⟩ := del_exact (pathOfThree_reached _) (by decide) (by decide)
    (by decide +kernel) hleaves
  exact ⟨t, t', ht, ht', hgone (by decide +kernel)⟩

end BST

end Prac
