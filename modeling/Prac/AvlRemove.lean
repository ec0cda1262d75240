import Prac.AvlSearch
import Prac.BstDelete

/-!
# Deletion from an AVL

* `AVL.TookOut` — what `del` leaves behind; `AVL.del_found` — the whole operation, in both modes.
* `AVL.modes_agree` — the optimized operations do what the others do.
-/

namespace Prac

namespace AVL

open BST (keyOf pairOf pairs)

variable {oramSize : Nat}

/-! ## The end of `del` -/

/-- The memory after the end of `del`: the node `nd` takes over the key and the value of `ns` if `F_ss`, and
those of `ns` are cleared. -/
def swapped (mem : Nodes) (F_ss : Bool) (nd ns : Nat) : Nodes :=
  { mem with
    key := Function.update (Function.update mem.key nd (mem.key (select F_ss nd ns))) ns 0
    value := Function.update (Function.update mem.value nd (mem.value (select F_ss nd ns))) ns 0 }

theorem swapped_pair {mem : Nodes} {F_ss : Bool} {nd ns a : Nat} (h : a ≠ ns) :
    pairOf (swapped mem F_ss nd ns) a = pairOf mem (if a = nd then select F_ss nd ns else a) := by
  simp only [pairOf, swapped]
  rw [Function.update_of_ne h, Function.update_of_ne h]
  split
  next heq => rw [heq, Function.update_self, Function.update_self]
  next hne => rw [Function.update_of_ne hne, Function.update_of_ne hne]

theorem swapped_zero {mem : Nodes} (hzero : mem.holds 0 = 0) {F_ss : Bool} {nd ns : Nat} (hnd : 0 ≠ nd) :
    (swapped mem F_ss nd ns).holds 0 = 0 := by
  obtain ⟨hkey, hpointers, hvalue⟩ := Node.mk.inj hzero
  by_cases hns : 0 = ns
  · subst hns
    simp [swapped, Nodes.holds, hpointers, Node.ext_iff]
  · simp [swapped, Nodes.holds, Function.update_of_ne hns, Function.update_of_ne hnd, hkey, hpointers, hvalue,
      Node.ext_iff]

section Finish

variable {A : Shape oramSize} {width bound : Nat} (hroom : Room A width bound) {mem : Nodes} {ptr : Value}
  (hptr : ptr.toNat < bound)
include hroom hptr

theorem addKey_eq (M : Value) : mem.addKey A ⟨ptr, width⟩ M =
    { mem with key := Function.update mem.key ptr.toNat (mem.key ptr.toNat + M) } := by
  have hadd := (hroom.reaches ptr hptr).add mem.key M
  unfold Nodes.addKey
  rw [hroom.width]
  exact congrArg (fun key => { mem with key }) hadd

theorem addValue_eq (M : Value) : mem.addValue A ⟨ptr, width⟩ M =
    { mem with value := Function.update mem.value ptr.toNat (mem.value ptr.toNat ^^^ M) } := by
  have hadd := (hroom.reaches ptr hptr).addXor mem.value M
  unfold Nodes.addValue
  rw [hroom.width]
  exact congrArg (fun value => { mem with value }) hadd

end Finish

/-- Two updates of different nodes, in both modes. -/
theorem finish_eq {A : Shape oramSize} {width bound : Nat} (hroom : Room A width bound) {mem : Nodes}
    {nd ns : Value} (hnd : nd.toNat < bound) (hns : ns.toNat < bound) (hne : nd.toNat ≠ ns.toNat)
    (key value : Value) (OPTIMIZED : Bool) :
    (if OPTIMIZED then
      (((mem.addKey A ⟨nd, width⟩ (key - mem.key nd.toNat)).addValue A ⟨nd, width⟩
        (value ^^^ mem.value nd.toNat)).addKey A ⟨ns, width⟩ (-mem.key ns.toNat)).addValue A ⟨ns, width⟩
        (mem.value ns.toNat)
    else
      (((mem.writeKey A (A.index nd) key).writeValue A (A.index nd) value).writeKey A (A.index ns)
        0).writeValue A (A.index ns) 0) =
    { mem with
      key := Function.update (Function.update mem.key nd.toNat key) ns.toNat 0
      value := Function.update (Function.update mem.value nd.toNat value) ns.toNat 0 } := by
  cases OPTIMIZED with
  | false =>
      rw [if_neg (by simp), Nodes.writeKey_of_reaches (hroom.reaches nd hnd),
        Nodes.writeValue_of_reaches (hroom.reaches nd hnd), Nodes.writeKey_of_reaches (hroom.reaches ns hns),
        Nodes.writeValue_of_reaches (hroom.reaches ns hns)]
  | true =>
      have hkey : mem.key nd.toNat + (key - mem.key nd.toNat) = key := by ring
      have hvalue : mem.value nd.toNat ^^^ (value ^^^ mem.value nd.toNat) = value := by
        rw [BitVec.xor_comm value, ← BitVec.xor_assoc, BitVec.xor_self, BitVec.zero_xor]
      rw [if_pos rfl, addKey_eq hroom hnd, addValue_eq hroom hnd, addKey_eq hroom hns, addValue_eq hroom hns]
      dsimp only
      rw [hkey, hvalue, Function.update_of_ne hne.symm, Function.update_of_ne hne.symm, BitVec.xor_self,
        ← sub_eq_add_neg, sub_self]
      rfl

/-! ## The operation -/

/-- The tree after a deletion. -/
def treeDel (b : AVL oramSize) (t : LinkedTree) (key : Value) : LinkedTree :=
  t.erase (found b.oram key) (goRight b.oram key)

/-- The node that a deletion finds, with the tree below it. -/
def treeFind (b : AVL oramSize) (t : LinkedTree) (key : Value) : LinkedTree :=
  t.find (found b.oram key) (goRight b.oram key)

/-- A double rotation of a deletion crosses. -/
def TreeCrosses (b : AVL oramSize) (t : LinkedTree) (key : Value) : Prop :=
  t.Crosses (found b.oram key) (goRight b.oram key)

instance instDecidableTreeCrosses (b : AVL oramSize) (t : LinkedTree) (key : Value) :
    Decidable (b.TreeCrosses t key) :=
  inferInstanceAs (Decidable (t.Crosses _ _))

/-- What `del` leaves of an AVL where the node `s` was found: the tree `t'`, in which the root of `s` has the
key and value of its successor if it had two children, and whose bits are right iff `ok`. -/
structure TookOut (b b' : AVL oramSize) (s t' : LinkedTree) (ok : Prop) : Prop where
  root : t' ≠ .nil → b'.root.toNat = t'.root
  tree : t'.AvlIff (linkOf b'.oram) (balOf b'.oram) ok
  moved : ∀ a ∈ t'.toList, pairOf b'.oram a = pairOf b.oram (if a = s.root then s.vacated else a)
  zero : b'.oram.holds 0 = 0
  items : b'.numItems + 1 = b.numItems
  max : b'.curMaxIndex = b.curMaxIndex
  empty : ∃ empty_loc : Value, b'.emptyLocations = empty_loc :: b.emptyLocations ∧
    empty_loc.toNat = s.vacated

theorem write_root {b : AVL oramSize} (hroom : b.curMaxIndex < oramSize)
    (hroot : b.root.toNat < b.curMaxIndex + 1) (node : Node) :
    b.oram.write (flat oramSize b.curMaxIndex) ⟨b.root, width b.curMaxIndex⟩ node =
      setNode b.oram b.root.toNat node := by
  rw [width_eq hroom]
  exact Nodes.write_of_reaches ((flat_room hroom).reaches b.root hroot) b.oram node

/-- The deletion of the only node. -/
theorem del_last {b : AVL oramSize} {t : LinkedTree} (h : b.Valid t) {key : Value}
    (hitems : b.numItems = 1) (hfind : b.treeFind t key ≠ .nil) : ∃ b',
      (∀ OPTIMIZED, b.del OPTIMIZED key = (true, b')) ∧
      TookOut b b' (b.treeFind t key) (b.treeDel t key) (¬ b.TreeCrosses t key) := by
  have hleaf := LinkedTree.eq_leaf (h.items.symm.trans hitems)
  have htree := h.tree fun hnil => by rw [(h.nil_iff.2 hnil)] at hitems; cases hitems
  have hbound : 0 < b.curMaxIndex + 1 := Nat.succ_pos _
  have hroot : b.root.toNat < b.curMaxIndex + 1 := htree.root ▸ root_inside hbound htree.inside
  have hhere : found b.oram key t.root = true := by
    by_contra hfound
    rw [treeFind, hleaf, LinkedTree.find, if_neg hfound] at hfind
    simp [LinkedTree.find] at hfind
  have hcmp := congrArg Prod.fst (compare_found b.oram key b.root.toNat)
  rw [htree.root, hhere, ← htree.root] at hcmp
  rw [treeFind, treeDel, TreeCrosses, LinkedTree.find_here hhere, LinkedTree.erase_here hhere,
    LinkedTree.crosses_here hhere, hleaf]
  refine ⟨{ b with
    oram := setNode b.oram b.root.toNat 0, numItems := 0, emptyLocations := b.root :: b.emptyLocations },
    fun OPTIMIZED => ?_, fun hne => absurd rfl hne, ?_, fun a ha => absurd ha (by simp [LinkedTree.eraseRoot]),
    ?_, hitems.symm, rfl, b.root, rfl, ?_⟩
  · unfold del
    rw [if_neg (by omega), if_pos hitems]
    simp only [read_root h.room hroot, write_root h.room hroot, Nodes.holds, hcmp, if_true]
  · exact ⟨trivial, trivial, iff_of_true trivial fun hcrosses => hcrosses.1 rfl⟩
  · have hne : 0 ≠ b.root.toNat := fun h0 => htree.avl.stored.ne_zero _
      (LinkedTree.root_mem (by rw [hleaf]; simp)) (htree.root ▸ h0.symm)
    exact (setNode_of_ne hne 0).trans h.zero
  · rw [htree.root]
    rfl

/-- The two nodes of the swap: they are different, and the second is the one taken out, or the node 0. -/
theorem Located.swap {s : LinkedTree} {ret : DelReturn} (h : Located s ret) (hroot : s.root ≠ 0) :
    ret.N_d.toNat ≠ ret.N_s.toNat ∧ (select ret.F_ss ret.N_d ret.N_s).toNat = s.vacated ∧
      (ret.N_s.toNat = 0 ∨ ret.N_s.toNat = s.vacated) := by
  have hNs := h.N_s
  rw [h.N_d]
  by_cases hsame : s.vacated = s.root
  · have hss : ret.F_ss = false := by rw [h.F_ss, decide_eq_true hsame, Bool.not_true]
    rw [hss, if_neg (by simp)] at hNs
    rw [hss, hNs, select_false, h.N_d]
    exact ⟨hroot, hsame.symm, .inl rfl⟩
  · have hss : ret.F_ss = true := by rw [h.F_ss, decide_eq_false hsame, Bool.not_false]
    rw [hss, if_pos rfl] at hNs
    rw [hss, hNs, select_true, hNs]
    exact ⟨Ne.symm hsame, rfl, .inr rfl⟩

/-- **Deletion** of a key that is found, in both modes. -/
theorem del_found {b : AVL oramSize} {t : LinkedTree} (h : b.Valid t) {key : Value}
    (hfind : b.treeFind t key ≠ .nil) : ∃ b', (∀ OPTIMIZED, b.del OPTIMIZED key = (true, b')) ∧
      TookOut b b' (b.treeFind t key) (b.treeDel t key) (¬ b.TreeCrosses t key) := by
  have hne : t ≠ .nil := by
    rintro rfl
    exact hfind rfl
  by_cases hlast : b.numItems = 1
  · exact del_last h hlast hfind
  have htree := h.tree hne
  have h0 : b.numItems ≠ 0 := fun h0 => hne (h.nil_iff.1 h0)
  have hbound : 0 < b.curMaxIndex + 1 := Nat.succ_pos _
  have hroom := flat_room h.room
  have hTTL := h.shaped.height_le_TTL
  obtain ⟨mem, bal_upd, ret, hrec, honly, hshrunk, hlocated⟩ :=
    delRec_found hroom h.fits h.zero _ htree hfind hTTL h.ordered h.keys
  have hperm : t.toList.Perm ((b.treeFind t key).vacated :: (b.treeDel t key).toList) := by
    rw [treeDel, LinkedTree.toList_erase]
    exact LinkedTree.perm_remove hfind
  have hroot : (b.treeFind t key).root ∈ t.toList := LinkedTree.mem_of_mem_find (LinkedTree.root_mem hfind)
  have hvac : (b.treeFind t key).vacated ∈ t.toList := hperm.mem_iff.2 List.mem_cons_self
  have hlocated : Located (b.treeFind t key) ret := hlocated
  have hroot0 := htree.avl.stored.ne_zero _ hroot
  have hnd : ret.N_d.toNat < b.curMaxIndex + 1 := hlocated.N_d ▸ htree.inside _ hroot
  have hns : ret.N_s.toNat < b.curMaxIndex + 1 := by
    rw [hlocated.N_s]
    split
    · exact htree.inside _ hvac
    · exact hbound
  obtain ⟨hapart, hvacated, hcleared⟩ := hlocated.swap hroot0
  have hkept : pairOf mem = pairOf b.oram := by
    funext a
    rw [pairOf, pairOf, honly.key, honly.value]
  refine ⟨{ oram := swapped mem ret.F_ss ret.N_d.toNat ret.N_s.toNat
            root := select ret.F_r b.root ret.ret_ptr
            numItems := b.numItems - 1
            curMaxIndex := b.curMaxIndex
            emptyLocations := select ret.F_ss ret.N_d ret.N_s :: b.emptyLocations },
    fun OPTIMIZED => ?_, fun _ => hshrunk.root, ?_, fun a ha => ?_, ?_, ?_, rfl, _, rfl, ?_⟩
  · have hfinish := @finish_eq _ _ _ _ hroom mem _ _ hnd hns hapart
      (select ret.F_ss (mem.key ret.N_d.toNat) (mem.key ret.N_s.toNat))
      (select ret.F_ss (mem.value ret.N_d.toNat) (mem.value ret.N_s.toNat)) OPTIMIZED
    unfold del
    rw [if_neg h0, if_neg hlast]
    simp only [hrec OPTIMIZED, readNode_eq hroom OPTIMIZED mem hnd, readNode_eq hroom OPTIMIZED mem hns,
      Nodes.holds, hfinish, swapped]
    cases ret.F_ss <;> rfl
  · exact hshrunk.tree
  · have hne_vac : a ≠ (b.treeFind t key).vacated := fun heq =>
      (List.nodup_cons.1 (hperm.nodup_iff.1 htree.nodup)).1 (heq ▸ ha)
    have hne_zero := htree.avl.stored.ne_zero a (hperm.mem_iff.2 (List.mem_cons_of_mem _ ha))
    have hne_ns : a ≠ ret.N_s.toNat := by
      rcases hcleared with hns | hns
      · rw [hns]
        exact hne_zero
      · rw [hns]
        exact hne_vac
    have hselect : select ret.F_ss ret.N_d.toNat ret.N_s.toNat = (b.treeFind t key).vacated := by
      rw [← hvacated]
      cases ret.F_ss <;> rfl
    rw [swapped_pair hne_ns, hselect, hlocated.N_d, hkept]
  · have hmem : mem.holds 0 = 0 := by
      rw [← h.zero, Nodes.holds, Nodes.holds, honly.key, honly.value,
        honly.pointers 0 fun hin => htree.avl.stored.ne_zero 0 hin rfl]
    exact swapped_zero hmem fun h0 => hroot0 (hlocated.N_d.symm.trans h0.symm)
  · dsimp only
    omega
  · exact hvacated

/-! ## What is left -/

section TookOut

variable {b b' : AVL oramSize} {t : LinkedTree} {key : Value}

/-- A deletion finds a key that is stored. -/
theorem treeFind_ne_nil (h : b.Valid t) (hstored : ∃ a ∈ t.toList, b.oram.key a = key) :
    b.treeFind t key ≠ .nil := by
  obtain ⟨a, ha, rfl⟩ := hstored
  have hkey : keyOf b.oram a < 2 ^ 63 := h.keys a ha
  have hcongr : b.treeFind t (b.oram.key a) =
      t.find (BST.found b.oram (b.oram.key a)) (BST.goRight b.oram (b.oram.key a)) := by
    refine LinkedTree.find_congr fun x hx => ?_
    have hcmp := congrArg Prod.snd (BST.compare_node hkey (h.keys x hx))
    rw [compare_found, Prod.mk.injEq] at hcmp
    exact hcmp
  have hiff := @LinkedTree.Ordered.find_eq_nil_iff (BST.found b.oram (b.oram.key a))
    (BST.goRight b.oram (b.oram.key a)) _ _ _ _ t h.ordered (fun _ _ h => h) (keyOf b.oram a)
    (fun _ => decide_eq_true_iff) (fun _ => decide_eq_true_iff)
  rw [hcongr]
  exact fun hnil => hiff.1 hnil a ha rfl

theorem treeFind_key (hfind : b.treeFind t key ≠ .nil) : b.oram.key (b.treeFind t key).root = key :=
  (of_decide_eq_true (LinkedTree.found_find hfind)).symm

/-- The nodes of the new tree. -/
theorem treeDel_perm (hfind : b.treeFind t key ≠ .nil) :
    t.toList.Perm ((b.treeFind t key).vacated :: (b.treeDel t key).toList) := by
  rw [treeDel, LinkedTree.toList_erase]
  exact LinkedTree.perm_remove hfind

variable {ok : Prop} (h : b.Valid t) (hfind : b.treeFind t key ≠ .nil)
  (htook : TookOut b b' (b.treeFind t key) (b.treeDel t key) ok)
include h hfind htook

/-- Exactly the pair of the node found is gone. -/
theorem TookOut.pairs_eq : ∃ value, pairs b.oram t = (key, value) ::ₘ pairs b'.oram (b.treeDel t key) := by
  have hne : t ≠ .nil := by
    rintro rfl
    exact hfind rfl
  have hmoved := htook.moved
  rw [treeDel, LinkedTree.toList_erase] at hmoved
  refine ⟨b.oram.value (b.treeFind t key).root, ?_⟩
  have hpairs := BST.pairs_moved (h.tree hne).nodup hfind hmoved
  rw [pairOf, ← treeFind, treeFind_key hfind] at hpairs
  rw [hpairs, pairs, pairs, treeDel, LinkedTree.toList_erase]

/-- The tree left is balanced and in order, and an AVL tree if its bits are right. -/
theorem TookOut.valid (hok : ok) : b'.Valid (b.treeDel t key) := by
  have hne : t ≠ .nil := by
    rintro rfl
    exact hfind rfl
  have htree := h.tree hne
  have hperm := treeDel_perm hfind
  have hmoved := htook.moved
  have hmem : ∀ a ∈ (b.treeDel t key).toList, a ∈ t.toList :=
    fun a ha => hperm.mem_iff.2 (List.mem_cons_of_mem _ ha)
  refine ⟨fun hne' => ⟨htook.root hne', htook.tree.avl_iff.2 hok, fun a ha => ?_, ?_⟩, ?_, fun a ha => ?_,
    htook.zero, ?_, ?_, ?_⟩
  · rw [htook.max]
    exact htree.inside a (hmem a ha)
  · exact (List.nodup_cons.1 (hperm.nodup_iff.1 htree.nodup)).2
  · rw [treeDel, LinkedTree.toList_erase] at hmoved
    rw [LinkedTree.ordered_le_iff, treeDel, LinkedTree.toList_erase, ← LinkedTree.ordered_le_iff]
    exact (BST.ordered_moved_iff htree.nodup hfind hmoved (fun _ _ h => h) h.ordered).2
      (BST.successorRelates_le h.ordered.find)
  · have hkey : keyOf b'.oram a = keyOf b.oram _ := congrArg (fun p => p.1.toNat) (hmoved a ha)
    rw [hkey]
    refine h.keys _ ?_
    split
    · exact hperm.mem_iff.2 List.mem_cons_self
    · exact hmem a ha
  · have hitems := htook.items
    have hlength := hperm.length_eq
    rw [h.items, LinkedTree.size, hlength, List.length_cons] at hitems
    exact Nat.succ.inj hitems
  · rw [htook.max]
    exact h.room
  · rw [htook.max]
    exact h.fits

/-- Any valid tree of what is left is that tree, with right bits. -/
theorem TookOut.ok_of_valid (hsize : 2 ≤ t.size) {t' : LinkedTree} (hvalid : b'.Valid t') : ok := by
  have hitems := htook.items
  have hlength := (treeDel_perm hfind).length_eq
  have hne' : t' ≠ .nil := by
    rintro rfl
    rw [hvalid.items, h.items, LinkedTree.size_nil] at hitems
    omega
  have hne : b.treeDel t key ≠ .nil := by
    intro hnil
    rw [hnil] at hlength
    rw [LinkedTree.size, hlength] at hsize
    simp at hsize
  have htree := hvalid.tree hne'
  have heq : t' = b.treeDel t key := htree.avl.stored.unique htook.tree.stored
    (htree.root.symm.trans (htook.root hne))
  exact htook.tree.avl_iff.1 (heq ▸ htree.avl)

end TookOut

/-- The deletion of a key takes out exactly one pair with it, and leaves a valid tree. -/
def DeletesCleanly (b : AVL oramSize) (OPTIMIZED : Bool) (t : LinkedTree) (key : Value) : Prop :=
  ∃ b' t' value, b.del OPTIMIZED key = (true, b') ∧ b'.Valid t' ∧
    pairs b.oram t = (key, value) ::ₘ pairs b'.oram t'

/-- **Deletion preserves the AVL tree**, in both modes, unless a double rotation crosses: then the balance
bits are wrong. -/
theorem del_correct_iff {b : AVL oramSize} {t : LinkedTree} (h : b.Valid t) (hsize : 2 ≤ t.size) {key : Value}
    (hstored : ∃ a ∈ t.toList, b.oram.key a = key) (OPTIMIZED : Bool) :
    b.DeletesCleanly OPTIMIZED t key ↔ ¬ b.TreeCrosses t key := by
  have hfind := treeFind_ne_nil h hstored
  obtain ⟨b', hdel, htook⟩ := del_found h hfind
  constructor
  · rintro ⟨b'', t', value, hdel', hvalid, _⟩
    obtain rfl : b' = b'' := congrArg Prod.snd ((hdel OPTIMIZED).symm.trans hdel')
    exact htook.ok_of_valid h hfind hsize hvalid
  · intro hok
    obtain ⟨value, hpairs⟩ := htook.pairs_eq h hfind
    exact ⟨b', _, value, hdel OPTIMIZED, htook.valid h hfind hok, hpairs⟩

/-- The keys 20, 10, 30 and 40, inserted in this order. -/
def leaning : AVL 8 where
  oram := {
    key := fun a => if a = 1 then 20 else if a = 2 then 10 else if a = 3 then 30 else if a = 4 then 40 else 0
    pointers := fun a => if a = 1 then 2 <<< 33 ||| 3 <<< 2 ||| 1 else if a = 3 then 4 <<< 2 ||| 1 else 0
    value := fun a => BitVec.ofNat 64 (100 * a) }
  root := 1
  numItems := 4
  curMaxIndex := 4
  emptyLocations := []

/-- Its tree. -/
def leaningTree : LinkedTree := .node 1 (.node 2 .nil .nil) (.node 3 .nil (.node 4 .nil .nil))

theorem leaning_valid : leaning.Valid leaningTree := by
  refine ⟨fun _ => ⟨rfl, ⟨by decide, by decide, by decide⟩, by decide, by decide⟩, ?_, by decide, rfl, rfl,
    by decide, by decide⟩
  rw [LinkedTree.ordered_le_iff]
  decide

/-- Deleting 10 rotates at the root, and deleting the root itself at its successor's place. -/
theorem del_correct_leaning :
    leaning.DeletesCleanly true leaningTree 10 ∧ leaning.DeletesCleanly true leaningTree 20 ∧
      (leaning.del true 10).2.root = 3 := by
  refine ⟨(del_correct_iff leaning_valid (by decide) ⟨2, by decide, rfl⟩ true).2 (by decide),
    (del_correct_iff leaning_valid (by decide) ⟨1, by decide, rfl⟩ true).2 (by decide), ?_⟩
  decide +kernel

/-- The keys 50, 20, 60, 10, 30, 70 and 25, inserted in this order. -/
def crossing : AVL 8 where
  oram := {
    key := fun a => if a = 1 then 50 else if a = 2 then 20 else if a = 3 then 60 else if a = 4 then 10
      else if a = 5 then 30 else if a = 6 then 70 else if a = 7 then 25 else 0
    pointers := fun a => if a = 1 then 2 <<< 33 ||| 3 <<< 2 ||| 2 else if a = 2 then 4 <<< 33 ||| 5 <<< 2 ||| 1
      else if a = 3 then 6 <<< 2 ||| 1 else if a = 5 then 7 <<< 33 ||| 2 else 0
    value := fun _ => 0 }
  root := 1
  numItems := 7
  curMaxIndex := 7
  emptyLocations := []

/-- Its tree. -/
def crossingTree : LinkedTree :=
  .node 1 (.node 2 (.node 4 .nil .nil) (.node 5 (.node 7 .nil .nil) .nil)) (.node 3 .nil (.node 6 .nil .nil))

theorem crossing_valid : crossing.Valid crossingTree := by
  refine ⟨fun _ => ⟨rfl, ⟨by decide, by decide, by decide⟩, by decide, by decide⟩, ?_, by decide, rfl, rfl,
    by decide, by decide⟩
  rw [LinkedTree.ordered_le_iff]
  decide

/-- Deleting 70 leaves the balance bits of 50 and 30 wrong. -/
theorem del_unbalances : crossing.Valid crossingTree ∧ 2 ≤ crossingTree.size ∧
    (∃ a ∈ crossingTree.toList, crossing.oram.key a = 70) ∧
      ¬ crossing.DeletesCleanly true crossingTree 70 := by
  have hstored : ∃ a ∈ crossingTree.toList, crossing.oram.key a = 70 := ⟨6, by decide, rfl⟩
  have hfind := treeFind_ne_nil crossing_valid hstored
  obtain ⟨b', hdel, htook⟩ := del_found crossing_valid hfind
  refine ⟨crossing_valid, by decide, hstored, ?_⟩
  rintro ⟨b'', t', value, hdel', hvalid, _⟩
  obtain rfl : b' = b'' := congrArg Prod.snd ((hdel true).symm.trans hdel')
  exact htook.ok_of_valid crossing_valid hfind (by decide) hvalid (by decide)

/-! ## The two modes -/

/-- **The optimized operations do what the others do**: the same memory, root and empty locations, and the
same result. -/
theorem modes_agree {b : AVL oramSize} {t : LinkedTree} (h : b.Valid t) :
    (b.SlotFree t → ∀ node : Node, node.pointers = 0 → b.insert true node = b.insert false node) ∧
      ∀ key : Value, key ≠ 0 → b.del true key = b.del false key := by
  refine ⟨fun hslot node hptrs => ?_, fun key hkey => ?_⟩
  · by_cases hne : t = .nil
    · have hcount := h.nil_iff.2 hne
      rw [insert, insert, if_pos hcount, if_pos hcount]
    · obtain ⟨b', _, hins, _⟩ := insert_linked h hslot hne hptrs
      rw [hins true, hins false]
  · by_cases hfind : b.treeFind t key = .nil
    · have hfails := h.shaped.del_fails hkey fun a ha hak => treeFind_ne_nil h ⟨a, ha, hak⟩ hfind
      rw [del_unchanged (hfails true), del_unchanged (hfails false)]
    · obtain ⟨b', hdel, _⟩ := del_found h hfind
      rw [hdel true, hdel false]

/-- Inserting 15 and deleting 10 and 30 in a tree with the keys 10 and 20. -/
theorem modes_agree_two : twoNodes.insert true ⟨15, 0, 150⟩ = twoNodes.insert false ⟨15, 0, 150⟩ ∧
    twoNodes.del true 10 = twoNodes.del false 10 ∧ twoNodes.del true 30 = twoNodes.del false 30 :=
  ⟨(modes_agree twoNodes_valid).1 ⟨by decide, by decide, by decide, by decide, by decide⟩ _ rfl,
    (modes_agree twoNodes_valid).2 10 (by decide), (modes_agree twoNodes_valid).2 30 (by decide)⟩

end AVL

end Prac
