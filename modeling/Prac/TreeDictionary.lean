import Prac.Lib.Dictionary
import Prac.BstCapacity

/-!
# Search trees are dictionaries

* `TreeStore` — a dictionary in the clear, which is what a search tree is for.
* `BST.call` — insertions, lookups and deletions of a BST.
* `BST.refines_dictionary` — over whole runs they reply what the dictionary replies.
* `AVL.call`, `AVL.refines_key_set` — those of an AVL say of each key whether it is stored.
-/

namespace Prac

open Simulation Dictionary

/-- An operation on a search tree. -/
abbrev TreeOp := Dictionary.Op Value Value

/-- What it replies. -/
abbrev TreeReply := Dictionary.Reply Value Value

/-- What is stored, and whether anything has been inserted yet. -/
structure TreeStore where
  entries : Dictionary Value Value
  used : Bool

namespace TreeStore

/-- Nothing is stored. -/
def empty : TreeStore := ⟨∅, false⟩

/-- One operation, and its reply. -/
def step (s : TreeStore) (op : TreeOp) : TreeStore × TreeReply :=
  match op with
  | .insert key value => (⟨s.entries.insert key value, true⟩, .inserted)
  | .lookup key otherwise => (s, (s.entries.step (.lookup key otherwise)).2)
  | .delete key => (⟨s.entries.erase key, s.used⟩, .deleted (key ∈ s.entries))

end TreeStore

namespace BST

variable {oramSize : Nat}

/-! ## BSTs -/

/-- One operation of a BST, and its reply. -/
def call (b : BST oramSize) : TreeOp → Option (BST oramSize × TreeReply)
  | .insert key value => (b.insert (newNode key value)).map fun b' => (b', .inserted)
  | .lookup key otherwise =>
    let (found, ret_node) := b.lookup key (newNode otherwise.1 otherwise.2)
    some (b, .lookedUp found (ret_node.key, ret_node.value))
  | .delete key => some ((b.del key).2, .deleted (b.del key).1)

/-- The operations that a BST supports.  The keys are not zero and have a sign bit of zero; an insertion is of a
new key, leaves an address out, and does not fill an emptied tree again; a deletion from one node is of its
key. -/
def Supported (oramSize : Nat) (s : TreeStore) : TreeOp → Prop
  | .insert key _ => key ≠ 0 ∧ key.toNat < 2 ^ 63 ∧ key ∉ s.entries ∧ (s.used = true → s.entries ≠ ∅) ∧
    s.entries.keys.card + 2 < oramSize ∧ s.entries.keys.card + 2 < 2 ^ 31
  | .lookup key _ => key ≠ 0 ∧ key.toNat < 2 ^ 63
  | .delete key => key ≠ 0 ∧ key.toNat < 2 ^ 63 ∧ (s.entries.keys.card = 1 → key ∈ s.entries)

/-- The BST holds what is stored. -/
structure StandsFor (b : BST oramSize) (s : TreeStore) : Prop where
  tree : ∃ t, b.Sound t ∧ pairs b.oram t = s.entries.pairs
  fresh : s.used = false → s.entries = ∅ ∧ b.emptyLocations = []

theorem StandsFor.init : (init : BST oramSize).StandsFor .empty :=
  ⟨⟨.nil, Sound.init, rfl⟩, fun _ => ⟨rfl, rfl⟩⟩

section Tree

variable {b : BST oramSize} {t : LinkedTree} {mem : Nodes} {d : Dictionary Value Value}

theorem size_eq_card (hpairs : pairs mem t = d.pairs) : t.size = d.keys.card := by
  rw [← card_pairs, ← hpairs, pairs, Multiset.coe_card, List.length_map]
  rfl

/-- A node with a key is stored iff the dictionary has it. -/
theorem exists_node_iff (hpairs : pairs mem t = d.pairs) {key : Value} :
    (∃ a ∈ t.toList, mem.key a = key) ↔ key ∈ d := by
  rw [mem_iff_pairs, ← hpairs]
  constructor
  · rintro ⟨a, ha, hkey⟩
    exact ⟨_, mem_pairs.2 ⟨a, ha, rfl⟩, hkey⟩
  · rintro ⟨_, hpair, hkey⟩
    obtain ⟨a, ha, rfl⟩ := mem_pairs.1 hpair
    exact ⟨a, ha, hkey⟩

/-- `num_items` counts the keys. -/
theorem Sound.numItems_eq (h : b.Sound t) (hpairs : pairs b.oram t = d.pairs) : b.numItems = d.keys.card :=
  h.holds.count.trans (size_eq_card hpairs)

theorem distinct_of_pairs (hpairs : pairs mem t = d.pairs) : ((pairs mem t).map Prod.fst).Nodup := by
  rw [hpairs]
  exact d.nodup_pairs

/-- The keys are in strict order. -/
theorem Sound.strict (h : b.Sound t) (hpairs : pairs b.oram t = d.pairs) :
    t.Ordered (· < ·) (keyOf b.oram) := by
  have hdistinct := distinct_of_pairs hpairs
  rw [pairs, Multiset.map_coe, Multiset.coe_nodup, List.map_map] at hdistinct
  refine h.ordered.strict ?_
  have hmap : t.toList.map (keyOf b.oram) = (t.toList.map (Prod.fst ∘ pairOf b.oram)).map BitVec.toNat := by
    rw [List.map_map]
    rfl
  rw [hmap]
  exact hdistinct.map fun _ _ => BitVec.eq_of_toNat_eq

/-- A lookup returns the value of the key, if there is one. -/
theorem Sound.lookup_eq (h : b.Sound t) (hpairs : pairs b.oram t = d.pairs) {key : Value} (hkey0 : key ≠ 0)
    (hkey : key.toNat < 2 ^ 63) (otherwise : Value × Value) :
    let res := b.lookup key (newNode otherwise.1 otherwise.2)
    res.1 = (d.lookup key).isSome ∧
      (res.2.key, res.2.value) = (d.lookup key).elim otherwise fun value => (key, value) := by
  intro res
  obtain ⟨hfound, hkeep, hhit⟩ : LookedUp b.oram key t (newNode otherwise.1 otherwise.2) res.1 res.2 := by
    by_cases hne : t = .nil
    · have hres : res = (false, newNode otherwise.1 otherwise.2) := by
        show b.lookup _ _ = _
        rw [lookup, h.holds.count, hne]
        rfl
      rw [hres, hne]
      exact ⟨by simp, fun _ => rfl, by simp⟩
    · have htree := h.holds.tree hne
      obtain ⟨found, node, hrec, hlooked⟩ := @lookupRec_spec oramSize b.oram (htree.pos hne) h.zero key hkey0
        hkey t b.numItems b.root false (newNode otherwise.1 otherwise.2) htree.root htree.stored
        (fun a ha => ⟨htree.inside a ha, (h.keys a ha).2⟩) (h.strict hpairs) (le_of_eq h.holds.count.symm)
      have hres : res = (found, node) := hrec.trans (by rw [Bool.false_or])
      rw [hres]
      exact hlooked
  have hstored := hfound.trans (exists_node_iff hpairs)
  cases hd : d.lookup key with
  | none =>
      have hnot : res.1 = false := by
        rw [Bool.eq_false_iff]
        exact fun htrue => Finmap.lookup_eq_none.mp hd (hstored.1 htrue)
      rw [hkeep hnot]
      exact ⟨hnot, rfl⟩
  | some value =>
      have htrue : res.1 = true := hstored.2 (Finmap.mem_of_lookup_eq_some hd)
      obtain ⟨a, ha, hak, hpair⟩ := hhit htrue
      refine ⟨htrue, hpair.trans ?_⟩
      have hin : pairOf b.oram a ∈ d.pairs := hpairs ▸ mem_pairs.2 ⟨a, ha, rfl⟩
      have hvalue : d.lookup key = some (pairOf b.oram a).2 := by
        rw [← Dictionary.mem_pairs, ← hak]
        exact hin
      have hsnd : (pairOf b.oram a).2 = value := Option.some.inj (hvalue.symm.trans hd)
      exact Prod.ext hak hsnd

/-- There is room for the next node. -/
theorem Sound.slot_lt (h : b.Sound t) (hroom : b.numItems + 2 < oramSize) : b.slot < oramSize := by
  rcases h.formed.placed.slot_cases h.holds with ⟨_, hslot⟩ | ⟨_, addr, rest, hempty, hslot⟩ | ⟨_, _, hslot, _⟩
  · omega
  · rw [hslot]
    refine h.slots.inside _ (List.mem_append_right _ ?_)
    rw [hempty]
    exact List.mem_cons_self
  · omega

end Tree

namespace StandsFor

variable {b : BST oramSize} {s : TreeStore}

/-- A tree with a node was inserted into. -/
theorem used_of_items {t : LinkedTree} (h : b.StandsFor s) (hsound : b.Sound t)
    (hpairs : pairs b.oram t = s.entries.pairs) (hitems : b.numItems ≠ 0) : s.used = true := by
  by_contra hnot
  obtain ⟨hempty, _⟩ := h.fresh (Bool.eq_false_iff.2 hnot)
  exact hitems ((hsound.numItems_eq hpairs).trans (eq_empty_iff.1 hempty))

theorem insert (h : b.StandsFor s) {key value : Value} (hsupp : Supported oramSize s (.insert key value)) :
    ∃ b', b.insert (newNode key value) = some b' ∧ b'.StandsFor (s.step (.insert key value)).1 := by
  obtain ⟨hkey0, hkey, hnew, hrefill, hroom, hint⟩ := hsupp
  obtain ⟨t, hsound, hpairs⟩ := h.tree
  have hitems := hsound.numItems_eq hpairs
  have hinsertable : b.Insertable key := ⟨hkey0, hkey, by omega⟩
  have hfree : b.SlotFree t := hsound.formed.placed.slotFree hsound.holds
    (fun _ _ haddr => hsound.slots.head_not_mem haddr) (hsound.slot_lt (by omega)) hinsertable.room
  have hempty : b.numItems = 0 → b.emptyLocations = [] := by
    intro hzero
    have hnone : s.entries = ∅ := eq_empty_iff.2 (hitems.symm.trans hzero)
    exact (h.fresh (Bool.eq_false_iff.2 fun hused => hrefill hused hnone)).2
  obtain ⟨b', hins, _⟩ := @insert_spec oramSize b t hsound.holds (fun a ha => (hsound.keys a ha).2) hfree
    (newNode key value) rfl hkey
  obtain ⟨hsound', _, hpairs'⟩ := hsound.insert hinsertable hempty hins
  refine ⟨b', hins, ⟨_, hsound', ?_⟩, fun hused => Bool.noConfusion hused⟩
  rw [hpairs', hpairs]
  exact (pairs_insert hnew value).symm

/-- The deletion from one node, which has the key. -/
theorem del_last (h : b.StandsFor s) {key : Value} (hitems : b.numItems = 1) (hin : key ∈ s.entries) :
    (b.del key).1 = true ∧ (b.del key).2.StandsFor ⟨s.entries.erase key, s.used⟩ := by
  obtain ⟨t, hsound, hpairs⟩ := h.tree
  obtain ⟨hformed, haddresses⟩ := hsound.formed.del_last hitems key
  have hused := h.used_of_items hsound hpairs (by omega)
  have hempty : s.entries.erase key = ∅ := by
    rw [eq_empty_iff, Finmap.keys_erase, Finset.card_erase_of_mem (Finmap.mem_keys.mpr hin),
      ← hsound.numItems_eq hpairs, hitems]
  refine ⟨?_, ⟨.nil, hformed.sound (haddresses.nodup_iff.2 hsound.slots.nodup), ?_⟩, fun hnot => ?_⟩
  · rw [BST.del, if_neg (by omega), if_pos hitems]
  · rw [hempty]
    rfl
  · rw [hused] at hnot
    cases hnot

theorem del (h : b.StandsFor s) {key : Value} (hsupp : Supported oramSize s (.delete key)) :
    (b.del key).1 = decide (key ∈ s.entries) ∧ (b.del key).2.StandsFor (s.step (.delete key)).1 := by
  obtain ⟨hkey0, hkey, hone⟩ := hsupp
  obtain ⟨t, hsound, hpairs⟩ := h.tree
  have hitems := hsound.numItems_eq hpairs
  by_cases hzero : b.numItems = 0
  · have hempty : s.entries = ∅ := eq_empty_iff.2 (hitems.symm.trans hzero)
    have hdel : b.del key = (false, b) := by rw [BST.del, if_pos hzero]
    have hnot : key ∉ s.entries := by
      rw [hempty]
      exact Finmap.notMem_empty
    rw [hdel, TreeStore.step, erase_of_notMem hnot]
    exact ⟨(decide_eq_false hnot).symm, h⟩
  by_cases hlast : b.numItems = 1
  · have hin := hone (hitems.symm.trans hlast)
    obtain ⟨hfound, hstands⟩ := h.del_last hlast hin
    exact ⟨hfound.trans (decide_eq_true hin).symm, hstands⟩
  have hquiet := hsound.holds.quietBelow (distinct_of_pairs hpairs) key
  obtain ⟨b', t', hdel, hsound', _, hiff, hgone, hkept⟩ := hsound.del hkey0 hkey (by omega) hquiet
  have hused := h.used_of_items hsound hpairs hzero
  have hreport : (b.del key).1 = true ↔ key ∈ s.entries := by
    rw [hiff, hpairs]
    exact mem_iff_pairs.symm
  rw [hdel]
  refine ⟨Bool.eq_iff_iff.2 (hreport.trans decide_eq_true_iff.symm), ⟨t', hsound', ?_⟩, fun hnot => ?_⟩
  · show pairs b'.oram t' = Dictionary.pairs (s.entries.erase key)
    by_cases hin : key ∈ s.entries
    · obtain ⟨⟨k, value⟩, rfl, hcons⟩ := hgone (hreport.2 hin)
      have hlookup : s.entries.lookup k = some value := by
        rw [← Dictionary.mem_pairs, ← hpairs, hcons]
        exact Multiset.mem_cons_self _ _
      rw [hpairs, pairs_erase hlookup] at hcons
      exact (Multiset.cons_inj_right _).1 hcons.symm
    · rw [hkept (Bool.eq_false_iff.2 fun htrue => hin (hreport.1 htrue)), hpairs, erase_of_notMem hin]
  · rw [show s.used = false from hnot] at hused
    cases hused

/-- An operation replies what the dictionary does. -/
theorem call (h : b.StandsFor s) (op : TreeOp) (hsupp : Supported oramSize s op) :
    ∃ b' reply, b.call op = some (b', reply) ∧ b'.StandsFor (s.step op).1 ∧ reply = (s.step op).2 := by
  cases op with
  | insert key value =>
      obtain ⟨b', hins, hstands⟩ := h.insert hsupp
      refine ⟨b', .inserted, ?_, hstands, rfl⟩
      rw [BST.call, hins]
      rfl
  | lookup key otherwise =>
      obtain ⟨t, hsound, hpairs⟩ := h.tree
      obtain ⟨hfound, hret⟩ := hsound.lookup_eq hpairs hsupp.1 hsupp.2 otherwise
      exact ⟨b, _, rfl, h, congrArg₂ Dictionary.Reply.lookedUp hfound hret⟩
  | delete key =>
      obtain ⟨hfound, hstands⟩ := h.del hsupp
      exact ⟨_, _, rfl, hstands, congrArg Dictionary.Reply.deleted hfound⟩

end StandsFor

/-- The tree does what the dictionary does. -/
theorem simulates_dictionary : Simulates StandsFor id id (ofStep (call : BST oramSize → TreeOp → _))
    (ofStepOn (Supported oramSize) TreeStore.step) := by
  rintro b s op s' reply hstands ⟨hsupp, hstep⟩
  obtain ⟨b', reply', hcall, hstands', hreply⟩ := hstands.call op hsupp
  rw [show s.step op = (s', reply) from hstep] at hreply hstands'
  exact ⟨b', reply', hcall, hstands', hreply⟩

/-- **A BST is a dictionary.**  Any sequence of insertions, lookups and deletions from an empty tree that it
supports succeeds; the replies are those of the dictionary in the clear, and the nodes in the end hold its keys
with their values. -/
theorem refines_dictionary {calls : List TreeOp}
    (hsupp : Throughout (Supported oramSize) TreeStore.step .empty calls) :
    ∃ b t, run call (init : BST oramSize) calls = some (b, (exec TreeStore.step .empty calls).2) ∧
      b.Holds t ∧ pairs b.oram t = (exec TreeStore.step .empty calls).1.entries.pairs := by
  have hideal := hsupp.run
  rw [← List.map_id calls] at hideal
  obtain ⟨b, replies, hrun, hstands, hreplies⟩ := simulates_dictionary.run StandsFor.init hideal
  simp only [List.map_id] at hreplies hstands
  obtain ⟨t, hsound, hpairs⟩ := hstands.tree
  rw [← hreplies]
  exact ⟨b, t, run_iff.mpr hrun, hsound.holds, hpairs⟩

/-- Inserting 20 and 10, looking for 10 and for 15, deleting 15 and 10, and looking for 10 again. -/
def fewCalls : List TreeOp :=
  [.insert 20 1, .insert 10 2, .lookup 10 (0, 0), .lookup 15 (0, 7), .delete 15, .delete 10, .lookup 10 (0, 0)]

theorem fewCalls_supported : Throughout (Supported 8) TreeStore.step .empty fewCalls := by
  unfold fewCalls
  simp only [Throughout, Supported]
  decide

/-- In a memory of eight nodes the BST replies to them like a dictionary. -/
theorem refines_dictionary_eight : ∃ b t, run call (init : BST 8) fewCalls = some (b,
      [.inserted, .inserted, .lookedUp true (10, 2), .lookedUp false (0, 7), .deleted false, .deleted true,
        .lookedUp false (0, 0)]) ∧ b.Holds t ∧ pairs b.oram t = {(20, 1)} :=
  refines_dictionary fewCalls_supported

end BST

namespace AVL

open BST (newNode pairs)

variable {oramSize : Nat}

/-! ## AVLs -/

/-- One operation of an AVL, and its reply. -/
def call (OPTIMIZED : Bool) (b : AVL oramSize) : TreeOp → Option (AVL oramSize × TreeReply)
  | .insert key value => (b.insert OPTIMIZED (newNode key value)).map fun b' => (b', .inserted)
  | .lookup key otherwise =>
    let (found, ret_node) := b.lookup key (newNode otherwise.1 otherwise.2)
    some (b, .lookedUp found (ret_node.key, ret_node.value))
  | .delete key => some ((b.del OPTIMIZED key).2, .deleted (b.del OPTIMIZED key).1)

/-- The operations that an AVL supports: it leaves no address out, and its deletions compare the key of an only
node. -/
def Supported (oramSize : Nat) (s : TreeStore) : TreeOp → Prop
  | .insert key _ => key.toNat < 2 ^ 63 ∧ key ∉ s.entries ∧ (s.used = true → s.entries ≠ ∅) ∧
    s.entries.keys.card + 1 < oramSize ∧ s.entries.keys.card + 1 < 2 ^ 31
  | .lookup key _ => key ≠ 0
  | .delete key => key ≠ 0

/-- A deletion whose double rotations do not cross. -/
def Uncrossed (b : AVL oramSize) : TreeOp → Prop
  | .delete key => ¬ b.Crosses key
  | _ => True

/-- The AVL holds what is stored. -/
structure StandsFor (b : AVL oramSize) (s : TreeStore) : Prop where
  tree : ∃ t, b.Allotted t ∧ pairs b.oram t = s.entries.pairs
  fresh : s.used = false → s.entries = ∅ ∧ b.emptyLocations = []

theorem StandsFor.init (hsize : 0 < oramSize) : (init : AVL oramSize).StandsFor .empty :=
  ⟨⟨.nil, Allotted.init hsize, rfl⟩, fun _ => ⟨rfl, rfl⟩⟩

section Tree

variable {b : AVL oramSize} {t : LinkedTree} {d : Dictionary Value Value}

/-- The tree of a valid AVL is determined by the state. -/
theorem Valid.unique {t' : LinkedTree} (h : b.Valid t) (h' : b.Valid t') : t = t' := by
  by_cases hzero : b.numItems = 0
  · rw [h.nil_iff.1 hzero, h'.nil_iff.1 hzero]
  · have htree := h.tree fun hnil => hzero (h.nil_iff.2 hnil)
    have htree' := h'.tree fun hnil => hzero (h'.nil_iff.2 hnil)
    exact htree.avl.stored.unique htree'.avl.stored (htree.root.symm.trans htree'.root)

theorem Valid.numItems_eq (h : b.Valid t) (hpairs : pairs b.oram t = d.pairs) : b.numItems = d.keys.card :=
  h.items.trans (BST.size_eq_card hpairs)

/-- With up to three nodes there is nothing to cross. -/
theorem not_crosses_of_items (h : b.numItems ≤ 3) (key : Value) : ¬ b.Crosses key := by
  rintro ⟨t, hvalid, hcrosses⟩
  have hheight : 4 ≤ t.height := LinkedTree.Crosses.height_le hcrosses
  have hsize := t.height_le_size
  have hitems := hvalid.items
  omega

/-- A lookup reports whether the key is stored. -/
theorem Valid.lookup_flag (h : b.Valid t) (hpairs : pairs b.oram t = d.pairs) {key : Value} (hkey : key ≠ 0)
    (ret_node : Node) : (b.lookup key ret_node).1 = (d.lookup key).isSome := by
  have hmeets : t.meets (found b.oram key) (goRight b.oram key) b.numItems = true ↔
      ∃ a ∈ t.toList, b.oram.key a = key := by
    have hsearch := BST.searchTree_of_ordered h.ordered h.keys
    refine (hsearch.meets_iff h.zero key (h.items ▸ t.height_le_size)).trans ?_
    exact or_iff_left fun hzero => hkey hzero.1
  rw [h.shaped.lookup_eq, Bool.eq_iff_iff]
  exact hmeets.trans ((BST.exists_node_iff hpairs).trans Finmap.lookup_isSome.symm)

end Tree

namespace StandsFor

variable {b : AVL oramSize} {s : TreeStore}

theorem insert (h : b.StandsFor s) (OPTIMIZED : Bool) {key value : Value}
    (hsupp : Supported oramSize s (.insert key value)) :
    ∃ b', b.insert OPTIMIZED (newNode key value) = some b' ∧ b'.StandsFor (s.step (.insert key value)).1 := by
  obtain ⟨hkey, hnew, hrefill, hroom, hint⟩ := hsupp
  obtain ⟨t, hallotted, hpairs⟩ := h.tree
  have hitems := hallotted.valid.numItems_eq hpairs
  have hinsertable : b.Insertable key := ⟨hkey, by omega⟩
  have hrefills : ¬ b.Refills := by
    rintro ⟨hzero, hempty⟩
    have hnone : s.entries = ∅ := eq_empty_iff.2 (hitems.symm.trans hzero)
    exact hempty (h.fresh (Bool.eq_false_iff.2 fun hused => hrefill hused hnone)).2
  have hfree := hallotted.slotFree_of_room hinsertable hrefills fun _ => by omega
  obtain ⟨b', t', hins, hinserted⟩ :=
    @insert_spec oramSize b t hallotted.valid hfree (newNode key value) rfl hkey
  obtain ⟨t'', hallotted'⟩ := hallotted.insert hinsertable hrefills (hins OPTIMIZED)
  obtain rfl := hinserted.valid.unique hallotted'.valid
  refine ⟨b', hins OPTIMIZED, ⟨t', hallotted', ?_⟩, fun hused => Bool.noConfusion hused⟩
  rw [hinserted.pairs_eq hfree.fresh, hpairs]
  exact (pairs_insert hnew value).symm

theorem del (h : b.StandsFor s) (OPTIMIZED : Bool) {key : Value} (hkey : key ≠ 0) (hcross : ¬ b.Crosses key) :
    (b.del OPTIMIZED key).1 = decide (key ∈ s.entries) ∧
      (b.del OPTIMIZED key).2.StandsFor (s.step (.delete key)).1 := by
  obtain ⟨t, hallotted, hpairs⟩ := h.tree
  have hvalid := hallotted.valid
  by_cases hin : key ∈ s.entries
  · have hfind := treeFind_ne_nil hvalid ((BST.exists_node_iff hpairs).2 hin)
    obtain ⟨b', hdel, htook⟩ := del_found hvalid hfind
    obtain ⟨value, hgone⟩ := htook.pairs_eq hvalid hfind
    have hok : ¬ b.TreeCrosses t key := fun htree => hcross ⟨t, hvalid, htree⟩
    obtain ⟨t', _, hallotted'⟩ := hallotted.del hkey OPTIMIZED
    have hlookup : s.entries.lookup key = some value := by
      rw [← Dictionary.mem_pairs, ← hpairs, hgone]
      exact Multiset.mem_cons_self _ _
    rw [hdel] at hallotted' ⊢
    obtain rfl := (hallotted' hok).valid.unique (htook.valid hvalid hfind hok)
    refine ⟨(decide_eq_true hin).symm, ⟨_, hallotted' hok, ?_⟩, fun hused => ?_⟩
    · rw [hpairs, pairs_erase hlookup] at hgone
      exact (Multiset.cons_inj_right _).1 hgone.symm
    · obtain ⟨hempty, _⟩ := h.fresh hused
      rw [hempty] at hin
      exact absurd hin Finmap.notMem_empty
  · have hnone a (ha : a ∈ t.toList) : b.oram.key a ≠ key :=
      fun hak => hin ((BST.exists_node_iff hpairs).1 ⟨a, ha, hak⟩)
    rw [del_unchanged (hvalid.shaped.del_fails hkey hnone OPTIMIZED), TreeStore.step, erase_of_notMem hin]
    exact ⟨(decide_eq_false hin).symm, h⟩

/-- An operation replies what the dictionary does, but for the value that a lookup finds. -/
theorem call (h : b.StandsFor s) (OPTIMIZED : Bool) (op : TreeOp) (hsupp : Supported oramSize s op)
    (hcross : b.Uncrossed op) :
    ∃ b' reply, b.call OPTIMIZED op = some (b', reply) ∧ reply.flag = (s.step op).2.flag ∧
      b'.StandsFor (s.step op).1 := by
  cases op with
  | insert key value =>
      obtain ⟨b', hins, hstands⟩ := h.insert OPTIMIZED hsupp
      refine ⟨b', .inserted, ?_, rfl, hstands⟩
      rw [AVL.call, hins]
      rfl
  | lookup key otherwise =>
      obtain ⟨t, hallotted, hpairs⟩ := h.tree
      exact ⟨b, _, rfl, hallotted.valid.lookup_flag hpairs hsupp _, h⟩
  | delete key =>
      obtain ⟨hfound, hstands⟩ := h.del OPTIMIZED hsupp hcross
      exact ⟨_, _, rfl, hfound, hstands⟩

/-- The deletions of a run that stores up to three keys at a time do not cross. -/
theorem uncrossed (h : b.StandsFor s) (OPTIMIZED : Bool) {calls : List TreeOp}
    (hsmall : Throughout (fun s op => Supported oramSize s op ∧ s.entries.keys.card ≤ 3) TreeStore.step s calls) :
    History.Along (fun b op => (AVL.call OPTIMIZED b op).map Prod.fst) Uncrossed b calls := by
  induction calls generalizing b s with
  | nil => trivial
  | cons op calls ih =>
      obtain ⟨⟨hsupp, hcard⟩, hsmall⟩ := hsmall
      have hcross : b.Uncrossed op := by
        obtain ⟨t, hallotted, hpairs⟩ := h.tree
        have hitems := hallotted.valid.numItems_eq hpairs
        cases op with
        | delete key => exact not_crosses_of_items (hitems.trans_le hcard) key
        | insert key value => trivial
        | lookup key otherwise => trivial
      obtain ⟨b₁, reply, hcall, -, hstands⟩ := h.call OPTIMIZED op hsupp hcross
      refine ⟨hcross, fun b' hb' => ?_⟩
      obtain rfl : b₁ = b' := Option.some.inj ((congrArg (Option.map Prod.fst) hcall).symm.trans hb')
      exact ih hstands hsmall

end StandsFor

/-- **An AVL is a dictionary** whose lookups report no values.  Any sequence of insertions, lookups and deletions
from an empty tree that it supports, none of them with double rotations that cross, succeeds in both modes; the
replies say of each key what the dictionary in the clear does, and the nodes in the end hold its keys with their
values. -/
theorem refines_key_set (OPTIMIZED : Bool) (hsize : 0 < oramSize) {calls : List TreeOp}
    (hsupp : Throughout (Supported oramSize) TreeStore.step .empty calls)
    (huncrossed : History.Along (fun b op => (call OPTIMIZED b op).map Prod.fst) Uncrossed
      (init : AVL oramSize) calls) :
    ∃ b replies t, run (call OPTIMIZED) (init : AVL oramSize) calls = some (b, replies) ∧
      replies.map Reply.flag = (exec TreeStore.step .empty calls).2.map Reply.flag ∧ b.Valid t ∧
      pairs b.oram t = (exec TreeStore.step .empty calls).1.entries.pairs := by
  obtain ⟨b, replies, hrun, hreplies, hstands⟩ := run_exec StandsFor Reply.flag
    (fun _ _ op h hop hcross => h.call OPTIMIZED op hop hcross) (StandsFor.init hsize) hsupp huncrossed
  obtain ⟨t, hallotted, hpairs⟩ := hstands.tree
  exact ⟨b, replies, t, hrun, hreplies, hallotted.valid, hpairs⟩

/-- Inserting 20, 10 and 30, looking for 10 and for 15, and deleting 15 and 20. -/
def fewCalls : List TreeOp :=
  [.insert 20 1, .insert 10 2, .insert 30 3, .lookup 10 (0, 0), .lookup 15 (0, 7), .delete 15, .delete 20]

theorem fewCalls_small : Throughout (fun s op => Supported 8 s op ∧ s.entries.keys.card ≤ 3) TreeStore.step .empty
    fewCalls := by
  unfold fewCalls
  simp only [Throughout, Supported]
  decide

/-- In a memory of eight nodes the replies tell of each key whether it is there, and 10 and 30 remain. -/
theorem refines_key_set_eight : ∃ b replies t, run (call true) (init : AVL 8) fewCalls = some (b, replies) ∧
      replies.map Reply.flag = [true, true, true, true, false, false, true] ∧ b.Valid t ∧
      pairs b.oram t = {(30, 3), (10, 2)} :=
  refines_key_set true (by decide) (fewCalls_small.mono fun _ _ => And.left)
    ((StandsFor.init (by decide)).uncrossed true fewCalls_small)

end AVL

end Prac
