import Prac.AvlRemove
import Prac.BstWindow

/-!
# The slots of the trees

* `Exclusive` — no address in use is an empty location, and the next insertion does not write to one.
* `BST.Run`, `AVL.Run` — the runs from an empty tree in which no insertion fills an emptied one again;
  `BST.Allotted`, `AVL.Allotted` — their invariants.
* `slots_exclusive` — no slot is shared in these runs, and filling an emptied tree again shares one.
-/

namespace Prac

/-- No slot is shared: the addresses in use are not among the empty locations, these are all different, and
the next node is not written to an address in use. -/
structure Exclusive (live : Nat → Prop) (empty : List Nat) (slot : Nat) : Prop where
  apart : ∀ a ∈ empty, ¬ live a
  nodup : empty.Nodup
  fresh : ¬ live slot

theorem Exclusive.of_nodup {live : Nat → Prop} {used empty : List Nat} {slot : Nat}
    (hlive : ∀ a, live a ↔ a ∈ used) (hnodup : (used ++ empty).Nodup) (hfresh : slot ∉ used) :
    Exclusive live empty slot := by
  obtain ⟨_, hempty, hdisjoint⟩ := List.nodup_append.1 hnodup
  refine ⟨fun a ha hlive' => ?_, hempty, fun hlive' => hfresh ((hlive _).1 hlive')⟩
  exact hdisjoint a ((hlive a).1 hlive') a ha rfl

/-- The addresses in use: those reachable from the root, where there are nodes.  An emptied tree keeps its
last root, which nothing looks at. -/
def InUse (left right : Nat → Nat) (numItems root a : Nat) : Prop :=
  numItems ≠ 0 ∧ LinkedTree.Reachable left right root a

theorem inUse_iff {left right : Nat → Nat} {t : LinkedTree} (hs : t.Stored left right) {numItems root : Nat}
    (hitems : numItems = t.size) (hroot : t ≠ .nil → root = t.root) {a : Nat} :
    InUse left right numItems root a ↔ a ∈ t.toList := by
  by_cases hne : t = .nil
  · refine iff_of_false (fun huse => huse.1 ?_) (by rw [hne]; simp)
    rw [hitems, hne, LinkedTree.size_nil]
  · have hcount : numItems ≠ 0 := fun h0 => by
      rw [hitems] at h0
      exact List.ne_nil_of_mem (LinkedTree.root_mem hne) (List.length_eq_zero_iff.1 h0)
    rw [InUse, hroot hne, hs.reachable_iff]
    exact and_iff_right hcount

namespace BST

variable {oramSize : Nat}

/-- The addresses of a BST in use. -/
def Live (b : BST oramSize) (a : Nat) : Prop :=
  InUse (leftLink b.oram) (rightLink b.oram) b.numItems b.root.toNat a

theorem Holds.live_iff {b : BST oramSize} {t : LinkedTree} (h : b.Holds t) {a : Nat} :
    b.Live a ↔ a ∈ t.toList := by
  refine inUse_iff ?_ h.count fun hne => (h.tree hne).root
  by_cases hne : t = .nil
  · rw [hne]
    exact trivial
  · exact (h.tree hne).stored

/-- No slot of the BST is shared. -/
def Exclusive (b : BST oramSize) : Prop :=
  Prac.Exclusive b.Live (b.emptyLocations.map BitVec.toNat) b.slot

/-- The next insertion fills an emptied BST again: its node goes to the address 1, which stays among the empty
locations. -/
def Refills (b : BST oramSize) : Prop := b.numItems = 0 ∧ b.emptyLocations ≠ []

/-- What an insertion is called with: a key that is not stored, and room for one more address, which is an
`int`. -/
structure Admits (b : BST oramSize) (key : Value) : Prop where
  room : b.numItems + 2 < 2 ^ 31
  distinct : ∀ a, b.Live a → b.oram.key a ≠ key

/-- The states of the runs from an empty BST whose insertions do not fill an emptied one again.  The keys are
of the whole range. -/
inductive Run : BST oramSize → Prop
  | init : Run init
  | insert {b b' : BST oramSize} (key value : Value) : Run b → b.Admits key → ¬ b.Refills →
      b.insert (newNode key value) = some b' → Run b'
  | del {b : BST oramSize} (key : Value) : Run b → key ≠ 0 → Run (b.del key).2

/-- The invariant of these runs: no address is used twice, and the address 1 is in use or empty once there was
a node. -/
structure Allotted (b : BST oramSize) (t : LinkedTree) : Prop where
  packed : b.Packed t
  nodup : (b.addresses t).Nodup
  one : b.addresses t = [] ∨ 1 ∈ b.addresses t

theorem Allotted.init : (init : BST oramSize).Allotted .nil :=
  ⟨Packed.init, List.nodup_nil, .inl rfl⟩

/-- No empty location is in use. -/
theorem Allotted.head_not_mem {b : BST oramSize} {t : LinkedTree} (h : b.Allotted t) {addr : Value}
    (haddr : addr ∈ b.emptyLocations.head?) : addr.toNat ∉ t.toList := fun ht =>
  (List.nodup_append.1 h.nodup).2.2 _ ht _ (List.mem_map_of_mem (List.mem_of_mem_head? haddr)) rfl

/-- No slot is shared. -/
theorem Allotted.exclusive {b : BST oramSize} {t : LinkedTree} (h : b.Allotted t) : b.Exclusive := by
  refine Exclusive.of_nodup (fun a => h.packed.holds.live_iff) h.nodup ?_
  rcases h.packed.placed.slot_cases h.packed.holds with ⟨hcount, _⟩ | ⟨_, addr, rest, hempty, hslot⟩ |
    ⟨_, _, _, hnew, _⟩
  · rw [h.packed.holds.eq_nil hcount]
    exact List.not_mem_nil
  · rw [hslot]
    exact h.head_not_mem (by rw [hempty]; rfl)
  · exact fun hused => hnew (List.mem_append_left _ hused)

theorem Allotted.slotFree {b b' : BST oramSize} {t : LinkedTree} (h : b.Allotted t)
    (hroom : b.numItems + 2 < 2 ^ 31) {node : Node} (hins : b.insert node = some b') : b.SlotFree t :=
  h.packed.placed.slotFree h.packed.holds (fun _ _ haddr => h.head_not_mem haddr)
    (insert_slot_lt h.packed.placed hins) hroom

/-- Below the node found no node has its key. -/
theorem Holds.quietBelow {b : BST oramSize} {t : LinkedTree} (h : b.Holds t)
    (hdistinct : ((pairs b.oram t).map Prod.fst).Nodup) (key : Value) :
    QuietBelow b.oram key (b.treeFind t key) := by
  rw [quietBelow_iff]
  by_cases hfind : b.treeFind t key = .nil
  · rw [hfind]
    exact trivial
  · have hne : t ≠ .nil := by
      rintro rfl
      exact hfind rfl
    have hroot : (b.treeFind t key).root ∈ t.toList := LinkedTree.mem_of_mem_find (LinkedTree.root_mem hfind)
    refine LinkedTree.quietBelow_of_unique (LinkedTree.nodup_find (h.tree hne).nodup) fun a ha hfound => ?_
    have hkey : key = b.oram.key a := BitVec.eq_of_toNat_eq (of_decide_eq_true hfound)
    exact eq_of_key hdistinct (LinkedTree.mem_of_mem_find ha) hroot (hkey.symm.trans (treeFind_key hfind).symm)

/-- An insertion that does not fill an emptied BST again keeps the invariant. -/
theorem Allotted.insert {b b' : BST oramSize} {t : LinkedTree} (h : b.Allotted t) {key value : Value}
    (hadmits : b.Admits key) (hrefills : ¬ b.Refills) (hins : b.insert (newNode key value) = some b') :
    ∃ t', b'.Allotted t' := by
  have hfree := h.slotFree hadmits.room hins
  obtain ⟨hpacked, hperm⟩ := h.packed.insert
    (fun a ha => hadmits.distinct a (h.packed.holds.live_iff.2 ha)) hfree hins
  refine ⟨_, hpacked, hperm.nodup_iff.2 ?_, .inr (hperm.mem_iff.2 ?_)⟩
  · by_cases hnew : b.numItems = 0 ∨ b.emptyLocations = []
    · have hnil : b.emptyLocations = [] :=
        hnew.elim (fun hcount => by_contra fun hne => hrefills ⟨hcount, hne⟩) id
      have haddresses : b.addresses t = t.toList := by
        rw [addresses, hnil, List.map_nil, List.append_nil]
      rw [if_pos hnew, List.nodup_cons]
      exact ⟨haddresses ▸ hfree.fresh, h.nodup⟩
    · rw [if_neg hnew]
      exact h.nodup
  · rcases h.one with hnone | hone
    · have hcount : b.numItems = 0 := by
        rw [h.packed.holds.count, LinkedTree.size, (List.append_eq_nil_iff.1 hnone).1]
        rfl
      rw [if_pos (.inl hcount), slot, if_pos hcount]
      exact List.mem_cons_self
    · split
      · exact List.mem_cons_of_mem _ hone
      · exact hone

/-- A deletion keeps the invariant. -/
theorem Allotted.del {b : BST oramSize} {t : LinkedTree} (h : b.Allotted t) {key : Value} (hkey : key ≠ 0) :
    ∃ t', (b.del key).2.Allotted t' := by
  obtain ⟨t', hpacked, hperm⟩ := h.packed.del hkey
  refine ⟨t', hpacked, hperm.nodup_iff.2 h.nodup, ?_⟩
  rcases h.one with hnone | hone
  · exact .inl (List.perm_nil.1 (hnone ▸ hperm))
  · exact .inr (hperm.mem_iff.2 hone)

theorem Run.allotted {b : BST oramSize} (h : b.Run) : ∃ t, b.Allotted t := by
  induction h with
  | init => exact ⟨_, Allotted.init⟩
  | insert key value _ hadmits hrefills hins ih =>
      obtain ⟨t, ht⟩ := ih
      exact ht.insert hadmits hrefills hins
  | del key _ hkey ih =>
      obtain ⟨t, ht⟩ := ih
      exact ht.del hkey

/-- The new node is at the slot. -/
theorem Allotted.insert_slot {b b' : BST oramSize} {t : LinkedTree} (h : b.Allotted t) {key value : Value}
    (hadmits : b.Admits key) (hins : b.insert (newNode key value) = some b') : b'.oram.key b.slot = key := by
  by_cases hcount : b.numItems = 0
  · unfold BST.insert at hins
    rw [if_pos hcount] at hins
    split at hins
    · cases hins
      rw [slot, if_pos hcount]
      rfl
    · cases hins
  · obtain ⟨b₁, hins₁, _, _, hkey, _⟩ :=
      @insert_leaf _ _ _ h.packed.holds (h.slotFree hadmits.room hins) (newNode key value) rfl
    obtain rfl : b₁ = b' := Option.some.inj (hins₁.symm.trans hins)
    exact hkey

/-- An insertion into an emptied BST shares its slot, and no other insertion does. -/
theorem Allotted.insert_exclusive_iff {b b' : BST oramSize} {t : LinkedTree} (h : b.Allotted t)
    {key value : Value} (hadmits : b.Admits key) (hins : b.insert (newNode key value) = some b') :
    b'.Exclusive ↔ ¬ b.Refills := by
  constructor
  · rintro hexclusive ⟨hcount, hempty⟩
    have hone : 1 ∈ b.emptyLocations.map BitVec.toNat := by
      have hnil := h.packed.holds.eq_nil hcount
      rcases h.one with hnone | hone
      · rw [addresses, hnil, List.nil_append, List.map_eq_nil_iff] at hnone
        exact absurd hnone hempty
      · rwa [addresses, hnil] at hone
    unfold BST.insert at hins
    rw [if_pos hcount] at hins
    split at hins
    · cases hins
      exact hexclusive.apart 1 hone ⟨one_ne_zero, .start one_ne_zero⟩
    · cases hins
  · intro hrefills
    obtain ⟨t', ht'⟩ := h.insert hadmits hrefills hins
    exact ht'.exclusive

end BST

namespace AVL

variable {oramSize : Nat}

/-- The addresses of an AVL in use. -/
def Live (b : AVL oramSize) (a : Nat) : Prop :=
  InUse (linkOf b.oram false) (linkOf b.oram true) b.numItems b.root.toNat a

/-- No slot of the AVL is shared. -/
def Exclusive (b : AVL oramSize) : Prop :=
  Prac.Exclusive b.Live (b.emptyLocations.map BitVec.toNat) b.slot

/-- The next insertion fills an emptied AVL again. -/
def Refills (b : AVL oramSize) : Prop := b.numItems = 0 ∧ b.emptyLocations ≠ []

/-- What an insertion is called with: a key in range, and room for one more link. -/
structure Insertable (b : AVL oramSize) (key : Value) : Prop where
  key_lt : key.toNat < 2 ^ 63
  room : b.numItems + 1 < 2 ^ 31

/-- A double rotation of the deletion crosses, which leaves wrong balance bits. -/
def Crosses (b : AVL oramSize) (key : Value) : Prop := ∃ t, b.Valid t ∧ b.TreeCrosses t key

/-- The states of the runs from an empty AVL whose insertions do not fill an emptied one again, and whose
deletions do not cross.  Keys may repeat, and the mode may change. -/
inductive Run : AVL oramSize → Prop
  | init : 0 < oramSize → Run init
  | insert {b b' : AVL oramSize} (OPTIMIZED : Bool) (key value : Value) : Run b → b.Insertable key →
      ¬ b.Refills → b.insert OPTIMIZED (BST.newNode key value) = some b' → Run b'
  | del {b : AVL oramSize} (OPTIMIZED : Bool) (key : Value) : Run b → key ≠ 0 → ¬ b.Crosses key →
      Run (b.del OPTIMIZED key).2

/-- The addresses in use and the empty locations. -/
def addresses (b : AVL oramSize) (t : LinkedTree) : List Nat :=
  t.toList ++ b.emptyLocations.map BitVec.toNat

/-- The AVL holds the tree, and its addresses and the empty locations are those up to `cur_max_index`. -/
structure Numbered (b : AVL oramSize) (t : LinkedTree) : Prop where
  root : t ≠ .nil → b.root.toNat = t.root
  stored : t.Stored (linkOf b.oram false) (linkOf b.oram true)
  items : b.numItems = t.size
  perm : (b.addresses t).Perm (List.range' 1 b.curMaxIndex)

theorem Numbered.live_iff {b : AVL oramSize} {t : LinkedTree} (h : b.Numbered t) {a : Nat} :
    b.Live a ↔ a ∈ t.toList :=
  inUse_iff h.stored h.items h.root

/-- The next slot: the top one of the empty locations, or the next address. -/
theorem Numbered.slot_cases {b : AVL oramSize} {t : LinkedTree} (h : b.Numbered t) (hrefills : ¬ b.Refills) :
    (b.numItems ≠ 0 ∧ b.nextMax = b.curMaxIndex ∧
      ∃ addr rest, b.emptyLocations = addr :: rest ∧ b.slot = addr.toNat) ∨
    (b.emptyLocations = [] ∧ b.nextMax = b.curMaxIndex + 1 ∧ b.slot = b.numItems + 1 ∧
      b.numItems = b.curMaxIndex) := by
  have hlength := h.perm.length_eq
  rw [addresses, List.length_append, List.length_map, List.length_range', ← LinkedTree.size, ← h.items]
    at hlength
  unfold slot nextMax
  cases hempty : b.emptyLocations with
  | cons addr rest =>
      have hcount : b.numItems ≠ 0 := fun h0 => hrefills ⟨h0, by simp [hempty]⟩
      rw [if_neg hcount]
      exact .inl ⟨hcount, if_neg (by simp [hcount]), addr, rest, rfl, rfl⟩
  | nil =>
      rw [hempty, List.length_nil, Nat.add_zero] at hlength
      refine .inr ⟨rfl, if_pos (.inr rfl), ?_, hlength⟩
      split
      next h0 => rw [h0]
      next => rfl

theorem Numbered.nodup {b : AVL oramSize} {t : LinkedTree} (h : b.Numbered t) : (b.addresses t).Nodup :=
  h.perm.nodup_iff.2 List.nodup_range'

theorem Numbered.mem_iff {b : AVL oramSize} {t : LinkedTree} (h : b.Numbered t) {a : Nat} :
    a ∈ b.addresses t ↔ 1 ≤ a ∧ a ≤ b.curMaxIndex := by
  rw [h.perm.mem_iff, List.mem_range'_1]
  omega

/-- The next slot is outside the tree. -/
theorem Numbered.fresh {b : AVL oramSize} {t : LinkedTree} (h : b.Numbered t) : b.slot ∉ t.toList := by
  intro hused
  by_cases hcount : b.numItems = 0
  · have hnil : t.toList = [] := List.length_eq_zero_iff.1 (h.items.symm.trans hcount)
    rw [hnil] at hused
    exact List.not_mem_nil hused
  · rcases h.slot_cases fun hrefills => hcount hrefills.1 with
      ⟨_, _, addr, rest, hempty, hslot⟩ | ⟨_, _, hslot, hmax⟩
    · have hmem : b.slot ∈ b.emptyLocations.map BitVec.toNat := by
        rw [hempty, hslot]
        exact List.mem_cons_self
      exact (List.nodup_append.1 h.nodup).2.2 _ hused _ hmem rfl
    · have hle := (h.mem_iff.1 (List.mem_append_left _ hused)).2
      omega

/-- No slot is shared. -/
theorem Numbered.exclusive {b : AVL oramSize} {t : LinkedTree} (h : b.Numbered t) : b.Exclusive :=
  Exclusive.of_nodup (fun _ => h.live_iff) h.nodup h.fresh

/-! ## Steps of the AVL -/

theorem insert_max {b b' : AVL oramSize} {OPTIMIZED : Bool} {node : Node}
    (hins : b.insert OPTIMIZED node = some b') : b'.curMaxIndex = b.nextMax := by
  unfold insert at hins
  unfold nextMax
  by_cases hcount : b.numItems = 0
  · rw [if_pos hcount] at hins
    rw [if_pos (.inl hcount)]
    split at hins
    · cases hins
      rfl
    · cases hins
  · rw [if_neg hcount] at hins
    cases hempty : b.emptyLocations with
    | cons addr rest =>
        rw [if_neg (by simp [hcount])]
        simp only [hempty] at hins
        cases hins
        rfl
    | nil =>
        rw [if_pos (.inr rfl)]
        simp only [hempty] at hins
        split at hins
        · cases hins
          rfl
        · cases hins

/-- An insertion at a fresh address that the memory has room for. -/
theorem insert_room {b b' : AVL oramSize} (hempty : b.emptyLocations = []) {OPTIMIZED : Bool} {node : Node}
    (hins : b.insert OPTIMIZED node = some b') : b.numItems + 1 < oramSize := by
  unfold insert at hins
  by_cases hcount : b.numItems = 0
  · rw [if_pos hcount] at hins
    split at hins
    · omega
    · cases hins
  · rw [if_neg hcount, hempty] at hins
    dsimp only at hins
    split at hins
    · assumption
    · cases hins

/-- The invariant of the runs. -/
structure Allotted (b : AVL oramSize) (t : LinkedTree) : Prop where
  valid : b.Valid t
  perm : (b.addresses t).Perm (List.range' 1 b.curMaxIndex)

theorem Allotted.numbered {b : AVL oramSize} {t : LinkedTree} (h : b.Allotted t) : b.Numbered t := by
  refine ⟨fun hne => (h.valid.tree hne).root, ?_, h.valid.items, h.perm⟩
  by_cases hne : t = .nil
  · rw [hne]
    exact trivial
  · exact (h.valid.tree hne).avl.stored

theorem Allotted.init (hsize : 0 < oramSize) : (init : AVL oramSize).Allotted .nil :=
  ⟨⟨fun hne => absurd rfl hne, trivial, fun a ha => absurd ha (by simp), rfl, rfl, hsize,
    Nat.two_pow_pos 31⟩, .refl _⟩

/-- The slot is free where there is room for a fresh address. -/
theorem Allotted.slotFree_of_room {b : AVL oramSize} {t : LinkedTree} (h : b.Allotted t) {key : Value}
    (hroom : b.Insertable key) (hrefills : ¬ b.Refills) (hlt : b.emptyLocations = [] → b.numItems + 1 < oramSize) :
    b.SlotFree t := by
  have hfresh := h.numbered.fresh
  have hmax := h.valid.room
  have hfits := h.valid.fits
  rcases h.numbered.slot_cases hrefills with ⟨_, hnext, addr, rest, hempty, hslot⟩ |
    ⟨hempty, hnext, hslot, hcount⟩
  · have hmem : b.slot ∈ b.addresses t := by
      refine List.mem_append_right _ ?_
      rw [hempty, hslot]
      exact List.mem_cons_self
    have hrange := h.numbered.mem_iff.1 hmem
    exact ⟨by omega, hfresh, by omega, by omega, by omega⟩
  · have hlt := hlt hempty
    have hnum := hroom.room
    exact ⟨by omega, hfresh, by omega, by omega, by omega⟩

theorem Allotted.slotFree {b b' : AVL oramSize} {t : LinkedTree} (h : b.Allotted t) {key value : Value}
    (hroom : b.Insertable key) (hrefills : ¬ b.Refills) {OPTIMIZED : Bool}
    (hins : b.insert OPTIMIZED (BST.newNode key value) = some b') : b.SlotFree t :=
  h.slotFree_of_room hroom hrefills fun hempty => insert_room hempty hins

/-- An insertion that does not fill an emptied AVL again keeps the invariant. -/
theorem Allotted.insert {b b' : AVL oramSize} {t : LinkedTree} (h : b.Allotted t) {key value : Value}
    (hroom : b.Insertable key) (hrefills : ¬ b.Refills) {OPTIMIZED : Bool}
    (hins : b.insert OPTIMIZED (BST.newNode key value) = some b') : ∃ t', b'.Allotted t' := by
  obtain ⟨b₁, t', hins₁, hinserted⟩ :=
    @insert_spec _ _ _ h.valid (h.slotFree hroom hrefills hins) (BST.newNode key value) rfl hroom.key_lt
  obtain rfl : b₁ = b' := Option.some.inj ((hins₁ OPTIMIZED).symm.trans hins)
  refine ⟨t', hinserted.valid, ?_⟩
  have hempty' := hinserted.empty
  rw [insert_max hins]
  rcases h.numbered.slot_cases hrefills with ⟨hcount, hnext, addr, rest, hempty, hslot⟩ |
    ⟨hempty, hnext, hslot, hcount⟩
  · rw [if_neg hcount, hempty, List.tail_cons] at hempty'
    have hperm : (b₁.addresses t').Perm (b.addresses t) := by
      rw [addresses, addresses, hempty', hempty, List.map_cons, ← hslot]
      exact (hinserted.perm.append_right _).trans List.perm_middle.symm
    rw [hnext]
    exact hperm.trans h.perm
  · have hnil : b₁.emptyLocations = [] := by
      rw [hempty', hempty]
      split <;> rfl
    have hperm := h.perm
    rw [addresses, hempty, List.map_nil, List.append_nil] at hperm
    rw [addresses, hnil, List.map_nil, List.append_nil, hnext, List.range'_1_concat]
    refine hinserted.perm.trans ((hperm.cons _).trans ?_)
    rw [hslot, hcount, Nat.add_comm 1]
    exact (List.perm_append_singleton _ _).symm

/-- A deletion keeps the addresses apart, and the invariant unless it crosses. -/
theorem Allotted.del {b : AVL oramSize} {t : LinkedTree} (h : b.Allotted t) {key : Value} (hkey : key ≠ 0)
    (OPTIMIZED : Bool) : ∃ t', (b.del OPTIMIZED key).2.Numbered t' ∧
      (¬ b.TreeCrosses t key → (b.del OPTIMIZED key).2.Allotted t') := by
  by_cases hfind : b.treeFind t key = .nil
  · have hnone a (ha : a ∈ t.toList) : b.oram.key a ≠ key := fun hak =>
      treeFind_ne_nil h.valid ⟨a, ha, hak⟩ hfind
    rw [del_unchanged (h.valid.shaped.del_fails hkey hnone _)]
    exact ⟨t, h.numbered, fun _ => h⟩
  · obtain ⟨b', hdel, htook⟩ := del_found h.valid hfind
    rw [hdel]
    have hperm := treeDel_perm hfind
    obtain ⟨empty_loc, hempty, hloc⟩ := htook.empty
    have haddresses : (b'.addresses (b.treeDel t key)).Perm (List.range' 1 b'.curMaxIndex) := by
      rw [htook.max]
      refine List.Perm.trans ?_ h.perm
      rw [addresses, addresses, hempty, List.map_cons, hloc]
      exact List.perm_middle.trans (hperm.append_right _).symm
    refine ⟨_, ⟨htook.root, htook.tree.stored, ?_, haddresses⟩,
      fun hok => ⟨htook.valid h.valid hfind hok, haddresses⟩⟩
    have hitems := htook.items
    have hlength := hperm.length_eq
    rw [h.valid.items, LinkedTree.size, hlength, List.length_cons] at hitems
    exact Nat.succ.inj hitems

theorem Run.allotted {b : AVL oramSize} (h : b.Run) : ∃ t, b.Allotted t := by
  induction h with
  | init hsize => exact ⟨_, Allotted.init hsize⟩
  | insert OPTIMIZED key value _ hroom hrefills hins ih =>
      obtain ⟨t, ht⟩ := ih
      exact ht.insert hroom hrefills hins
  | del OPTIMIZED key _ hkey hcrosses ih =>
      obtain ⟨t, ht⟩ := ih
      obtain ⟨t', _, hallotted⟩ := ht.del hkey OPTIMIZED
      exact ⟨t', hallotted fun htree => hcrosses ⟨t, ht.valid, htree⟩⟩

/-- The new node is at the slot. -/
theorem Allotted.insert_slot {b b' : AVL oramSize} {t : LinkedTree} (h : b.Allotted t) {key value : Value}
    (hroom : b.Insertable key) {OPTIMIZED : Bool}
    (hins : b.insert OPTIMIZED (BST.newNode key value) = some b') : b'.oram.key b.slot = key := by
  by_cases hcount : b.numItems = 0
  · unfold AVL.insert at hins
    rw [if_pos hcount] at hins
    split at hins
    · cases hins
      rw [slot, if_pos hcount]
      rfl
    · cases hins
  · have hfree := h.slotFree hroom (fun hrefills => hcount hrefills.1) hins
    obtain ⟨b₁, t', hins₁, hinserted⟩ :=
      @insert_spec _ _ _ h.valid hfree (BST.newNode key value) rfl hroom.key_lt
    obtain rfl : b₁ = b' := Option.some.inj ((hins₁ OPTIMIZED).symm.trans hins)
    rw [hinserted.key, Function.update_self]
    rfl

/-- An insertion into an emptied AVL shares its slot, and no other insertion does. -/
theorem Allotted.insert_exclusive_iff {b b' : AVL oramSize} {t : LinkedTree} (h : b.Allotted t)
    {key value : Value} (hroom : b.Insertable key) {OPTIMIZED : Bool}
    (hins : b.insert OPTIMIZED (BST.newNode key value) = some b') : b'.Exclusive ↔ ¬ b.Refills := by
  constructor
  · rintro hexclusive ⟨hcount, hempty⟩
    have hone : 1 ∈ b.emptyLocations.map BitVec.toNat := by
      have hnil : t.toList = [] := List.length_eq_zero_iff.1 (h.valid.items.symm.trans hcount)
      have hlength := h.perm.length_eq
      rw [addresses, hnil, List.nil_append, List.length_map, List.length_range'] at hlength
      have hpos := List.length_pos_iff.2 hempty
      have hmem := h.numbered.mem_iff.2 ⟨le_refl 1, by omega⟩
      rwa [addresses, hnil, List.nil_append] at hmem
    unfold AVL.insert at hins
    rw [if_pos hcount] at hins
    split at hins
    · cases hins
      exact hexclusive.apart 1 hone ⟨one_ne_zero, .start one_ne_zero⟩
    · cases hins
  · intro hrefills
    obtain ⟨t', ht'⟩ := h.insert hroom hrefills hins
    exact ht'.numbered.exclusive

/-- The AVL after an insertion that succeeds. -/
def inserted (b : AVL oramSize) (OPTIMIZED : Bool) (key value : Value) : AVL oramSize :=
  (b.insert OPTIMIZED (BST.newNode key value)).getD b

end AVL

/-! ## Both trees -/

variable {oramSize : Nat}

/-- **Slots are not shared** in the runs that do not fill an emptied tree again: not in any state, nor after
one more step, unless this is an insertion that does. -/
theorem slots_exclusive :
    (∀ b : BST oramSize, b.Run → b.Exclusive ∧
      (∀ key value b', b.Admits key → b.insert (BST.newNode key value) = some b' →
        b'.oram.key b.slot = key ∧ (b'.Exclusive ↔ ¬ b.Refills)) ∧
      ∀ key : Value, key ≠ 0 → (b.del key).2.Exclusive) ∧
    ∀ b : AVL oramSize, b.Run → b.Exclusive ∧
      (∀ OPTIMIZED key value b', b.Insertable key → b.insert OPTIMIZED (BST.newNode key value) = some b' →
        b'.oram.key b.slot = key ∧ (b'.Exclusive ↔ ¬ b.Refills)) ∧
      ∀ OPTIMIZED, ∀ key : Value, key ≠ 0 → (b.del OPTIMIZED key).2.Exclusive := by
  constructor
  · intro b hrun
    obtain ⟨t, ht⟩ := hrun.allotted
    refine ⟨ht.exclusive, fun key value b' hadmits hins => ?_, fun key hkey => ?_⟩
    · exact ⟨ht.insert_slot hadmits hins, ht.insert_exclusive_iff hadmits hins⟩
    · obtain ⟨t', ht'⟩ := ht.del hkey
      exact ht'.exclusive
  · intro b hrun
    obtain ⟨t, ht⟩ := hrun.allotted
    refine ⟨ht.numbered.exclusive, fun OPTIMIZED key value b' hroom hins => ?_, fun OPTIMIZED key hkey => ?_⟩
    · exact ⟨ht.insert_slot hroom hins, ht.insert_exclusive_iff hroom hins⟩
    · obtain ⟨t', ht', _⟩ := ht.del hkey OPTIMIZED
      exact ht'.exclusive

/-- A BST with one node, emptied. -/
def emptiedBst : BST 8 := ((BST.init.inserted 20 1).del 20).2

/-- An AVL with one node, emptied. -/
def emptiedAvl : AVL 8 := ((AVL.init.inserted true 20 1).del true 20).2

theorem emptiedBst_run : emptiedBst.Run := by
  have hinit : (BST.init : BST 8).Run := .init
  have hadmits : (BST.init : BST 8).Admits 20 := ⟨by decide, fun a ha => absurd rfl ha.1⟩
  have hone : (BST.init.inserted 20 1 : BST 8).Run := hinit.insert 20 1 hadmits (fun h => h.2 rfl) rfl
  exact hone.del 20 (by decide)

theorem emptiedAvl_run : emptiedAvl.Run := by
  have hinit : (AVL.init : AVL 8).Run := .init (by decide)
  have hone : (AVL.init.inserted true 20 1 : AVL 8).Run :=
    hinit.insert true 20 1 ⟨by decide, by decide⟩ (fun h => h.2 rfl) rfl
  refine hone.del true 20 (by decide) ?_
  rintro ⟨t, ht, hcrosses⟩
  have hleaf := LinkedTree.eq_leaf (t := t) ht.items.symm
  have hroot := (ht.tree (by rw [hleaf]; simp)).root
  rw [hleaf, ← hroot] at hcrosses
  exact absurd hcrosses (by decide)

/-- No slot is shared in the emptied trees; inserting 30 into one of them shares a slot. -/
theorem slots_exclusive_emptied : emptiedBst.Exclusive ∧ emptiedAvl.Exclusive ∧
    ¬ (emptiedBst.inserted 30 2).Exclusive ∧ ¬ (emptiedAvl.inserted true 30 2).Exclusive := by
  obtain ⟨hbst, havl⟩ := @slots_exclusive 8
  obtain ⟨hbst, hinsertBst, _⟩ := hbst _ emptiedBst_run
  obtain ⟨havl, hinsertAvl, _⟩ := havl _ emptiedAvl_run
  refine ⟨hbst, havl, fun hshared => ?_, fun hshared => ?_⟩
  · have hadmits : emptiedBst.Admits 30 := ⟨by decide, fun a ha => absurd rfl ha.1⟩
    exact (hinsertBst 30 2 _ hadmits rfl).2.1 hshared ⟨rfl, by decide⟩
  · exact (hinsertAvl true 30 2 _ ⟨by decide, by decide⟩ rfl).2.1 hshared ⟨rfl, by decide⟩

/-- After inserting 20, deleting it and inserting 30 the only node is at the address 1, which is an empty
location, and the next insertion writes to it. -/
theorem refilled_shares_slot :
    ((emptiedBst.inserted 30 2).Live 1 ∧ (emptiedBst.inserted 30 2).emptyLocations = [1] ∧
      (emptiedBst.inserted 30 2).slot = 1 ∧ ¬ (emptiedBst.inserted 30 2).Exclusive) ∧
    ((emptiedAvl.inserted true 30 2).Live 1 ∧ (emptiedAvl.inserted true 30 2).emptyLocations = [1] ∧
      (emptiedAvl.inserted true 30 2).slot = 1 ∧ ¬ (emptiedAvl.inserted true 30 2).Exclusive) := by
  have hbst : (emptiedBst.inserted 30 2).Live 1 := ⟨by decide, .start one_ne_zero⟩
  have havl : (emptiedAvl.inserted true 30 2).Live 1 := ⟨by decide, .start one_ne_zero⟩
  exact ⟨⟨hbst, rfl, rfl, fun h => h.fresh hbst⟩, havl, rfl, rfl, fun h => h.fresh havl⟩

end Prac
