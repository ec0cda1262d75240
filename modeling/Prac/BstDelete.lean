import Prac.BstSearch

/-!
# Deletion from a BST

* `TookOut` — what `del` leaves behind: a tree with one node less, and the address of that node among
  the empty locations; `del_found` — the whole operation.
* `TookOut.pairs_eq` — exactly the pair of the deleted node is gone.
* `TookOut.ordered_iff` — when the tree is still a search tree.
* `del_accepted_iff` — when `check_bst` accepts the tree after a deletion.
-/

namespace Prac

namespace BST

variable {oramSize : Nat}

/-! ## The operation -/

/-- What `del` leaves of a BST with the tree `t`, where the node `s` was found: the tree `t'`, in which
the root of `s` has the key and value of its successor if it had two children. -/
structure TookOut (b b' : BST oramSize) (s t' : LinkedTree) : Prop where
  holds : b'.Holds t'
  zero : b'.oram.holds 0 = 0
  moved : ∀ a ∈ t'.toList, pairOf b'.oram a = pairOf b.oram (if a = s.root then s.vacated else a)
  items : b'.numItems + 1 = b.numItems
  empty : ∃ empty_loc : Value, b'.emptyLocations = empty_loc :: b.emptyLocations ∧
    empty_loc.toNat = s.vacated

/-- The tree after a deletion. -/
def treeDel (b : BST oramSize) (t : LinkedTree) (key : Value) : LinkedTree :=
  t.remove (found b.oram key) (goRight b.oram key)

/-- The node that a deletion finds, with the tree below it. -/
def treeFind (b : BST oramSize) (t : LinkedTree) (key : Value) : LinkedTree :=
  t.find (found b.oram key) (goRight b.oram key)

/-- The key and the value of one node, written through its address. -/
theorem writePair_flat (mem : Nodes) {ptr : Value} (h : ptr.toNat < oramSize) (key value : Value) :
    (mem.writeKey (flat oramSize) ((flat oramSize).index ptr) key).writeValue (flat oramSize)
      ((flat oramSize).index ptr) value = { mem with
        key := Function.update mem.key ptr.toNat key
        value := Function.update mem.value ptr.toNat value } := by
  rw [Nodes.writeKey_of_reaches (Shape.whole_reaches h),
    Nodes.writeValue_of_reaches (Shape.whole_reaches h)]

theorem vacated_node (x : Nat) (l r : LinkedTree) :
    (LinkedTree.node x l r).vacated = if twoChildren l r then r.minAddr else x := by
  rw [LinkedTree.vacated]
  by_cases hone : l = .nil ∨ r = .nil
  · rw [if_pos hone, twoChildren_eq_false hone]
    rfl
  · rw [if_neg hone]
    rw [not_or] at hone
    simp [twoChildren, hone.1, hone.2]

/-- What holds of a BST before an operation that looks for `key`. -/
structure Searchable (b : BST oramSize) (t : LinkedTree) (key : Value) : Prop where
  holds : b.Holds t
  zero : b.oram.holds 0 = 0
  keys : ∀ a ∈ t.toList, keyOf b.oram a < 2 ^ 63
  key_ne_zero : key ≠ 0
  key_lt : key.toNat < 2 ^ 63

/-- The end of `del`: the node at `N_d` takes over the pair of the one at `N_s`, if there is one. -/
theorem del_swap {mem : Nodes} (hn : 0 < oramSize) {x : Nat} {lx rx : LinkedTree}
    {ret : DelReturn} (hdeleted : Deleted x lx rx ret) (hx : x < oramSize)
    (hmin : twoChildren lx rx = true → rx.minAddr < oramSize) :
    let A := flat oramSize
    let del_node := mem.read A (A.index ret.N_d)
    let suc_node := mem.read A (A.index ret.N_s)
    ((((mem.writeKey A (A.index ret.N_d) (select ret.F_ss del_node.key suc_node.key)).writeValue A
      (A.index ret.N_d) (select ret.F_ss del_node.value suc_node.value)).writeKey A
      (A.index ret.N_s) 0).writeValue A (A.index ret.N_s) 0) =
      let y := if twoChildren lx rx then rx.minAddr else x
      let z := if twoChildren lx rx then rx.minAddr else 0
      { mem with
        key := Function.update (Function.update mem.key x (mem.key y)) z 0
        value := Function.update (Function.update mem.value x (mem.value y)) z 0 } := by
  obtain ⟨hNd, hss, hNs⟩ := hdeleted
  have hxlt : ret.N_d.toNat < oramSize := hNd ▸ hx
  have hslt : ret.N_s.toNat < oramSize := by
    rw [hNs]
    split
    · rename_i htwo
      exact hmin htwo
    · exact hn
  dsimp only
  rw [read_flat mem hxlt, read_flat mem hslt, writePair_flat mem hxlt, writePair_flat _ hslt, hss, hNs,
    hNd]
  cases twoChildren lx rx with
  | false => rfl
  | true => rfl

/-- **Deletion.**  The node found, or its successor, is taken out of the tree. -/
theorem del_found {b : BST oramSize} {t : LinkedTree} {key : Value} (hb : b.Holds t) (hzero : b.oram.holds 0 = 0)
    (hkey : key ≠ 0) (hitems : 2 ≤ b.numItems) {x : Nat} {lx rx : LinkedTree}
    (hfind : t.find (isKey b.oram key) (isAbove b.oram key) = .node x lx rx)
    (hleast : ∀ a ∈ rx.toList, isAbove b.oram key a = false)
    (hquiet : (LinkedTree.node x lx rx).QuietBelow (isKey b.oram key) (isAbove b.oram key)) :
    ∃ b', b.del key = (true, b') ∧
      TookOut b b' (.node x lx rx) (t.remove (isKey b.oram key) (isAbove b.oram key)) := by
  have hne : t ≠ .nil := by
    rintro rfl
    cases hfind
  have htree := hb.tree hne
  have hn : 0 < oramSize := lt_of_le_of_lt (Nat.zero_le _) (htree.inside _ (LinkedTree.root_mem hne))
  have hperm := @LinkedTree.perm_remove (isKey b.oram key) (isAbove b.oram key) t (by simp [hfind])
  have hroot := LinkedTree.mem_of_find hfind
  rw [hfind] at hperm
  have hvac : (LinkedTree.node x lx rx).vacated ∈ t.toList := hperm.mem_iff.2 List.mem_cons_self
  have hnodup := hperm.nodup_iff.1 htree.nodup
  have hmem : ∀ a ∈ (t.remove (isKey b.oram key) (isAbove b.oram key)).toList, a ∈ t.toList :=
    fun a ha => hperm.mem_iff.2 (List.mem_cons_of_mem _ ha)
  obtain ⟨mem, ret, hrun, hunlinked, hdeleted⟩ := delRec_spec hn hzero hkey htree.root htree.stored
    htree.inside htree.nodup hfind hleast hquiet (le_of_eq hb.count.symm)
  have hswap := @del_swap _ mem hn _ _ _ _ hdeleted (htree.inside x hroot) fun htwo => by
    rw [vacated_node, if_pos htwo] at hvac
    exact htree.inside _ hvac
  dsimp only at hswap
  rw [← vacated_node x] at hswap
  rw [del, if_neg (by omega), if_neg (by omega), hrun]
  dsimp only
  rw [hswap]
  have hsize := hperm.length_eq
  rw [List.length_cons] at hsize
  have hcount := hb.count
  have hptr0 : mem.pointers 0 = b.oram.pointers 0 :=
    hunlinked.frame 0 fun h0 => htree.stored.ne_zero 0 h0 rfl
  refine ⟨_, rfl, ⟨?_, fun hne' => ⟨?_, hunlinked.stored, ?_, ?_⟩⟩, ?_, ?_, ?_, ?_⟩
  · change b.numItems - 1 = (t.remove (isKey b.oram key) (isAbove b.oram key)).size
    unfold LinkedTree.size at hcount ⊢
    omega
  · change (select ret.F_r b.root ret.ret_ptr).toNat = (t.remove (isKey b.oram key) (isAbove b.oram key)).root
    cases hF : ret.F_r with
    | true => exact hunlinked.ret_ptr
    | false => exact htree.root.trans (hunlinked.stay hF).symm
  · exact fun a ha => htree.inside a (hmem a ha)
  · exact (List.nodup_cons.1 hnodup).2
  · have hx0 : (0 : Nat) ≠ x := fun h0 => htree.stored.ne_zero x hroot h0.symm
    have hupdate : ∀ (f : Words) (v : Value), f 0 = 0 → Function.update (Function.update f x v)
        (if twoChildren lx rx then rx.minAddr else 0) 0 0 = 0 := by
      intro f v hf
      by_cases hz : 0 = if twoChildren lx rx = true then rx.minAddr else 0
      · rw [← hz, Function.update_self]
      · rw [Function.update_of_ne hz, Function.update_of_ne hx0, hf]
    rw [Node.ext_iff] at hzero ⊢
    refine ⟨?_, hptr0.trans hzero.2.1, ?_⟩
    · exact hupdate _ _ ((congrFun hunlinked.key 0).trans hzero.1)
    · exact hupdate _ _ ((congrFun hunlinked.value 0).trans hzero.2.2)
  · intro a ha
    have hane : a ≠ (LinkedTree.node x lx rx).vacated :=
      fun hav => (List.nodup_cons.1 hnodup).1 (hav ▸ ha)
    have ha0 : a ≠ 0 := htree.stored.ne_zero a (hmem a ha)
    have hz : a ≠ if twoChildren lx rx = true then rx.minAddr else 0 := by
      rw [vacated_node] at hane
      split
      · rename_i htwo
        rwa [if_pos htwo] at hane
      · exact ha0
    have hroot' : (if a = (LinkedTree.node x lx rx).root then (LinkedTree.node x lx rx).vacated
        else a) = if a = x then (LinkedTree.node x lx rx).vacated else a := rfl
    rw [hroot']
    simp only [pairOf, Function.update_of_ne hz, hunlinked.key, hunlinked.value]
    by_cases hax : a = x
    · rw [if_pos hax, hax, Function.update_self, Function.update_self]
    · rw [if_neg hax, Function.update_of_ne hax, Function.update_of_ne hax]
  · change b.numItems - 1 + 1 = b.numItems
    omega
  · refine ⟨_, rfl, ?_⟩
    rw [vacated_node, hdeleted.swap]
    have hNs := hdeleted.successor
    cases htwo : twoChildren lx rx with
    | false => exact hdeleted.node
    | true =>
        rw [htwo] at hNs
        exact hNs

/-- Keys below `2^63` are found in the order of the numbers. -/
theorem del_spec {b : BST oramSize} {t : LinkedTree} {key : Value} (h : b.Searchable t key)
    (hitems : 2 ≤ b.numItems) (hord : t.Ordered (· ≤ ·) (keyOf b.oram))
    (hfind : b.treeFind t key ≠ .nil) (hquiet : QuietBelow b.oram key (b.treeFind t key)) :
    ∃ b', b.del key = (true, b') ∧ TookOut b b' (b.treeFind t key) (b.treeDel t key) := by
  have hcmp a (ha : a ∈ t.toList) := isKey_isAbove_of_lt h.key_lt (h.keys a ha)
  have hsame : t.find (isKey b.oram key) (isAbove b.oram key) = b.treeFind t key := LinkedTree.find_congr hcmp
  rw [treeDel, ← LinkedTree.remove_congr hcmp]
  cases hs : b.treeFind t key with
  | nil => exact absurd hs hfind
  | node x lx rx =>
      have hin a (ha : a ∈ (LinkedTree.node x lx rx).toList) : a ∈ t.toList :=
        LinkedTree.mem_of_mem_find (hs ▸ ha : a ∈ (b.treeFind t key).toList)
      rw [hs] at hquiet hsame
      refine del_found h.holds h.zero h.key_ne_zero hitems hsame (fun a ha => ?_) ?_
      · have hx : key.toNat = keyOf b.oram x := by
          have hfound : found b.oram key (b.treeFind t key).root = true := LinkedTree.found_find hfind
          rw [hs] at hfound
          exact of_decide_eq_true hfound
        have hwhole : (b.treeFind t key).Ordered (· ≤ ·) (keyOf b.oram) := hord.find
        rw [hs] at hwhole
        rw [(hcmp a (hin a (LinkedTree.mem_node.2 (.inr (.inr ha))))).2]
        exact decide_eq_false (Nat.not_lt.2 (hx ▸ hwhole.2.1 a ha))
      · exact (LinkedTree.quietBelow_congr fun a ha => hcmp a (hin a ha)).2 (quietBelow_iff.1 hquiet)

/-! ## What is left -/

section TookOut

variable {b b' : BST oramSize} {t : LinkedTree} {key : Value}

theorem treeFind_key (hfind : b.treeFind t key ≠ .nil) :
    b.oram.key (b.treeFind t key).root = key := by
  have hroot : found b.oram key (b.treeFind t key).root = true := LinkedTree.found_find hfind
  exact BitVec.eq_of_toNat_eq (of_decide_eq_true hroot).symm

/-- A deletion finds a key that is stored. -/
theorem treeFind_eq_nil_iff (hord : t.Ordered (· ≤ ·) (keyOf b.oram)) :
    b.treeFind t key = .nil ↔ ∀ p ∈ pairs b.oram t, p.1 ≠ key := by
  have hiff := @LinkedTree.Ordered.find_eq_nil_iff (found b.oram key) (goRight b.oram key) _ _ _ _ t hord
    (fun _ _ h => h) key.toNat (fun _ => decide_eq_true_iff) (fun _ => decide_eq_true_iff)
  rw [treeFind, hiff]
  constructor
  · intro hall p hp
    obtain ⟨a, ha, rfl⟩ := mem_pairs.1 hp
    exact fun hk => hall a ha (congrArg BitVec.toNat hk)
  · intro hall a ha hk
    exact hall _ (mem_pairs.2 ⟨a, ha, rfl⟩) (BitVec.eq_of_toNat_eq hk)

theorem treeDel_perm (hfind : b.treeFind t key ≠ .nil) :
    t.toList.Perm ((b.treeFind t key).vacated :: (b.treeDel t key).toList) :=
  LinkedTree.perm_remove hfind

/-- Where the entry at `r` is overwritten by the one at `v`, which goes away, `r`'s is lost. -/
theorem map_moved {β : Type*} {f f' : Nat → β} {l : List Nat} {r v : Nat} (hnodup : (v :: l).Nodup)
    (hr : r ∈ v :: l) (h : ∀ a ∈ l, f' a = f (if a = r then v else a)) :
    ((v :: l).map f).Perm (f r :: l.map f') := by
  obtain ⟨hv, hl⟩ := List.nodup_cons.1 hnodup
  by_cases hrv : r = v
  · subst hrv
    have hsame : l.map f' = l.map f := by
      refine List.map_congr_left fun a ha => ?_
      have har : a ≠ r := fun har => hv (har ▸ ha)
      rw [h a ha, if_neg har]
    rw [hsame, List.map_cons]
  · have hrl : r ∈ l := (List.mem_cons.1 hr).resolve_left hrv
    have hperm := List.perm_cons_erase hrl
    have hrest : (l.erase r).map f' = (l.erase r).map f := by
      refine List.map_congr_left fun a ha => ?_
      have har := (hl.mem_erase_iff.1 ha).1
      rw [h a (List.mem_of_mem_erase ha), if_neg har]
    have hf' : f' r = f v := by rw [h r hrl, if_pos rfl]
    have hleft : ((v :: l).map f).Perm (f v :: f r :: (l.erase r).map f) := (hperm.map f).cons (f v)
    have hright : (f r :: l.map f').Perm (f r :: f v :: (l.erase r).map f) := by
      have := (hperm.map f').cons (f r)
      rwa [List.map_cons, hf', hrest] at this
    exact hleft.trans ((List.Perm.swap _ _ _).trans hright.symm)

/-- The successor's key relates to the keys left on the right of the node that takes it over. -/
def SuccessorRelates (R : Nat → Nat → Prop) (mem : Nodes) : LinkedTree → Prop
  | .nil => True
  | .node _ l r => l = .nil ∨ r = .nil ∨ ∀ c ∈ r.deleteMin.toList, R (keyOf mem r.minAddr) (keyOf mem c)

/-- In a search tree that need not be strict it does. -/
theorem successorRelates_le {mem : Nodes} {s : LinkedTree} (hord : s.Ordered (· ≤ ·) (keyOf mem)) :
    SuccessorRelates (· ≤ ·) mem s := by
  cases s with
  | nil => exact trivial
  | node x l r =>
      obtain ⟨_, _, _, hr⟩ := hord
      exact .inr (.inr fun c hc => hr.minAddr_le (fun _ _ h => h) (LinkedTree.mem_of_mem_deleteMin hc))

section Moved

variable {mem mem' : Nodes} {found right : Nat → Bool} (hnodup : t.toList.Nodup)
  (hfind : t.find found right ≠ .nil)
  (hmoved : ∀ a ∈ (t.remove found right).toList, pairOf mem' a =
    pairOf mem (if a = (t.find found right).root then (t.find found right).vacated else a))
include hnodup hfind hmoved

/-- Exactly the pair of the node found is gone. -/
theorem pairs_moved : pairs mem t = pairOf mem (t.find found right).root ::ₘ
    pairs mem' (t.remove found right) := by
  have hperm := LinkedTree.perm_remove hfind
  have hroot : (t.find found right).root ∈ t.toList :=
    LinkedTree.mem_of_mem_find (LinkedTree.root_mem hfind)
  rw [pairs, Multiset.coe_eq_coe.2 (hperm.map _), pairs, Multiset.cons_coe]
  exact Multiset.coe_eq_coe.2 (map_moved (hperm.nodup_iff.1 hnodup) (hperm.mem_iff.1 hroot) hmoved)

/-- When the tree without the node is a search tree. -/
theorem ordered_moved_iff {R : Nat → Nat → Prop} (hR : ∀ x y, R x y → x ≤ y)
    (hord : t.Ordered R (keyOf mem)) : (t.remove found right).Ordered R (keyOf mem') ↔
      SuccessorRelates R mem (t.find found right) := by
  have hkeys : ∀ a ∈ (t.remove found right).toList, keyOf mem' a =
      keyOf mem (if a = (t.find found right).root then (t.find found right).vacated else a) :=
    fun a ha => congrArg (fun p : Value × Value => p.1.toNat) (hmoved a ha)
  cases hs : t.find found right with
  | nil => exact absurd hs hfind
  | node x lx rx =>
      rw [hs] at hkeys
      exact hord.moved_iff hR hnodup hs hkeys

end Moved

theorem TookOut.pairs_eq (h : TookOut b b' (b.treeFind t key) (b.treeDel t key))
    (hnodup : t.toList.Nodup) (hfind : b.treeFind t key ≠ .nil) :
    pairs b.oram t = pairOf b.oram (b.treeFind t key).root ::ₘ pairs b'.oram (b.treeDel t key) :=
  pairs_moved hnodup hfind h.moved

theorem TookOut.ordered_iff {R : Nat → Nat → Prop} (hR : ∀ x y, R x y → x ≤ y)
    (h : TookOut b b' (b.treeFind t key) (b.treeDel t key)) (hnodup : t.toList.Nodup)
    (hfind : b.treeFind t key ≠ .nil) (hord : t.Ordered R (keyOf b.oram)) :
    (b.treeDel t key).Ordered R (keyOf b'.oram) ↔
      SuccessorRelates R b.oram (b.treeFind t key) :=
  ordered_moved_iff hnodup hfind h.moved hR hord

end TookOut

/-! ## Accepted trees -/

theorem quiet_of_ne {mem : Nodes} {key : Value} {t : LinkedTree}
    (h : ∀ a ∈ t.toList, keyOf mem a ≠ key.toNat) : Quiet mem key t := by
  induction t with
  | nil => exact trivial
  | node a l r ihl ihr =>
      rw [Quiet, if_neg (h a (by simp)).symm]
      split
      · exact ihr fun x hx => h x (LinkedTree.mem_node.2 (.inr (.inr hx)))
      · exact ihl fun x hx => h x (LinkedTree.mem_node.2 (.inl hx))

/-- In a strict search tree of smaller keys, a node with the key has nothing on its right. -/
theorem quiet_of_le {mem : Nodes} {key : Value} {t : LinkedTree} (hord : t.Ordered (· < ·) (keyOf mem))
    (h : ∀ a ∈ t.toList, keyOf mem a ≤ key.toNat) : Quiet mem key t := by
  induction t with
  | nil => exact trivial
  | node a l r ihl ihr =>
      obtain ⟨_, hgt, hl, hr⟩ := hord
      have hql := ihl hl fun x hx => h x (LinkedTree.mem_node.2 (.inl hx))
      have hqr := ihr hr fun x hx => h x (LinkedTree.mem_node.2 (.inr (.inr hx)))
      rw [Quiet]
      split
      · rename_i heq
        refine ⟨.inr ?_, hql, hqr⟩
        cases r with
        | nil => rfl
        | node c l' r' =>
            have hc := hgt c (by simp)
            have hle := h c (by simp)
            omega
      · split
        · exact hqr
        · exact hql

/-- Below a node of a strict search tree the recursion has nothing else to change. -/
theorem quietBelow_of_ordered {mem : Nodes} {key : Value} {s : LinkedTree}
    (hord : s.Ordered (· < ·) (keyOf mem)) (hkey : s ≠ .nil → mem.key s.root = key) :
    QuietBelow mem key s := by
  cases s with
  | nil => exact trivial
  | node x l r =>
      obtain ⟨hle, hgt, hl, hr⟩ := hord
      have hx : key.toNat = keyOf mem x := congrArg BitVec.toNat (hkey (by simp)).symm
      have hright : ∀ a ∈ r.toList, keyOf mem a ≠ key.toNat := by
        intro a ha
        have := hgt a ha
        omega
      rw [QuietBelow]
      split
      · exact ⟨quiet_of_le hl fun a ha => hx ▸ hle a ha, quiet_of_ne hright⟩
      · exact quiet_of_ne fun a ha => hright a (LinkedTree.mem_of_mem_afterMin ha)

/-- Where the node has two children, no other node on its right has the key of its successor. -/
def SuccessorUnique (mem : Nodes) (s : LinkedTree) : Prop :=
  ∀ x l r, s = .node x l r → l ≠ .nil → r ≠ .nil →
    ∀ c ∈ r.toList, mem.key c = mem.key r.minAddr → c = r.minAddr

theorem successorRelates_iff_unique {mem : Nodes} {s : LinkedTree}
    (hord : s.Ordered (· < ·) (keyOf mem)) (hnodup : s.toList.Nodup) :
    SuccessorRelates (· < ·) mem s ↔ SuccessorUnique mem s := by
  cases s with
  | nil => exact iff_of_true trivial fun x l r h => nomatch h
  | node x l r =>
      obtain ⟨_, _, _, hr⟩ := hord
      rw [LinkedTree.toList_node, List.nodup_append, List.nodup_cons] at hnodup
      obtain ⟨_, ⟨_, hndr⟩, _⟩ := hnodup
      constructor
      · intro h x' l' r' heq hl hne c hc hkey
        cases heq
        rw [LinkedTree.toList_deleteMin hne, List.mem_cons] at hc
        refine hc.resolve_right fun hc => ?_
        have hlt := ((h.resolve_left hl).resolve_left hne) c hc
        rw [keyOf, keyOf, hkey] at hlt
        exact absurd hlt (lt_irrefl _)
      · intro h
        by_cases hl : l = .nil
        · exact .inl hl
        · by_cases hne : r = .nil
          · exact .inr (.inl hne)
          · refine .inr (.inr fun c hc => ?_)
            have hcr := LinkedTree.mem_of_mem_deleteMin hc
            refine lt_of_le_of_ne (hr.minAddr_le (fun _ _ => le_of_lt) hcr) fun hkey => ?_
            rw [LinkedTree.toList_deleteMin hne] at hndr
            have heq := h x l r rfl hl hne c hcr (BitVec.eq_of_toNat_eq hkey).symm
            exact (List.nodup_cons.1 hndr).1 (heq ▸ hc)

/-- A deletion from an accepted tree: what it leaves, and whether that is accepted. -/
theorem Searchable.del_accepted {b : BST oramSize} {t : LinkedTree} {key : Value}
    (h : b.Searchable t key) (haccepted : b.Accepted) (hitems : 2 ≤ b.numItems)
    (hstored : ∃ p ∈ pairs b.oram t, p.1 = key) : ∃ b', b.del key = (true, b') ∧
      TookOut b b' (b.treeFind t key) (b.treeDel t key) ∧
      (b'.Accepted ↔ SuccessorUnique b.oram (b.treeFind t key)) := by
  have hne : t ≠ .nil := by
    rintro rfl
    obtain ⟨p, hp, _⟩ := hstored
    simp [pairs] at hp
  have htree := h.holds.tree hne
  have hord := (htree.accepted_iff h.keys).1 haccepted
  have hweak := hord.mono fun _ _ => le_of_lt
  have hfind : b.treeFind t key ≠ .nil := by
    intro hnil
    obtain ⟨p, hp, hpk⟩ := hstored
    exact (treeFind_eq_nil_iff hweak).1 hnil p hp hpk
  have hfindord : (b.treeFind t key).Ordered (· < ·) (keyOf b.oram) := hord.find
  obtain ⟨b', hdel, htook⟩ := del_spec h hitems hweak hfind
    (quietBelow_of_ordered hfindord fun hne => treeFind_key hne)
  have hperm := treeDel_perm hfind
  have hvac : (b.treeFind t key).vacated ∈ t.toList := hperm.mem_iff.2 List.mem_cons_self
  have hne' : b.treeDel t key ≠ .nil := by
    intro hnil
    have hsize := hperm.length_eq
    have hcount := h.holds.count
    rw [hnil, LinkedTree.toList_nil, List.length_cons, List.length_nil] at hsize
    unfold LinkedTree.size at hcount
    omega
  have hkeys : ∀ a ∈ (b.treeDel t key).toList, keyOf b'.oram a < 2 ^ 63 := by
    intro a ha
    have hkey : keyOf b'.oram a = _ :=
      congrArg (fun p : Value × Value => p.1.toNat) (htook.moved a ha)
    rw [hkey]
    refine h.keys _ ?_
    split
    · exact hvac
    · exact hperm.mem_iff.2 (List.mem_cons_of_mem _ ha)
  have hfindnodup : (b.treeFind t key).toList.Nodup := LinkedTree.nodup_find htree.nodup
  refine ⟨b', hdel, htook, ?_⟩
  rw [(htook.holds.tree hne').accepted_iff hkeys,
    htook.ordered_iff (fun _ _ => le_of_lt) htree.nodup hfind hord,
    successorRelates_iff_unique hfindord hfindnodup]

/-- **A deletion from an accepted tree leaves an accepted one iff no other node on the right of the
deleted one shares the key of its successor.** -/
theorem del_accepted_iff {b : BST oramSize} {t : LinkedTree} (ht : b.Holds t)
    (haccepted : b.Accepted) (hkeys : KeysOk b.oram t) (hzero : b.oram.holds 0 = 0)
    (hitems : 2 ≤ b.numItems) {key : Value} (hstored : ∃ p ∈ pairs b.oram t, p.1 = key) :
    ∃ b', b.del key = (true, b') ∧
      (b'.Accepted ↔ SuccessorUnique b.oram (b.treeFind t key)) := by
  obtain ⟨p, hp, rfl⟩ := hstored
  have hp' := hp
  obtain ⟨a, ha, rfl⟩ := mem_pairs.1 hp'
  have hsearch : b.Searchable t (pairOf b.oram a).1 :=
    ⟨ht, hzero, fun x hx => (hkeys x hx).2, (hkeys a ha).1, (hkeys a ha).2⟩
  obtain ⟨b', hdel, _, hiff⟩ := hsearch.del_accepted haccepted hitems ⟨_, hp, rfl⟩
  exact ⟨b', hdel, hiff⟩

/-- The key 10 at the root, 5 on its left, and on its right 20 twice. -/
def equalSuccessors : BST 8 where
  oram := {
    key := fun a => if a = 1 then 10 else if a = 3 then 5 else if a = 4 ∨ a = 5 then 20 else 0
    pointers := fun a => if a = 1 then 0x300000004 else if a = 4 then 0x500000000 else 0
    value := fun a => BitVec.ofNat 64 a }
  root := 1
  numItems := 4
  emptyLocations := []

def equalSuccessorsTree : LinkedTree :=
  .node 1 (.node 3 .nil .nil) (.node 4 (.node 5 .nil .nil) .nil)

theorem equalSuccessors_holds : equalSuccessors.Holds equalSuccessorsTree := by
  refine ⟨rfl, fun _ => ⟨rfl, ?_, by decide, by decide⟩⟩
  unfold equalSuccessorsTree LinkedTree.Stored
  exact ⟨by decide, rfl, rfl, ⟨by decide, rfl, rfl, trivial, trivial⟩,
    ⟨by decide, rfl, rfl, ⟨by decide, rfl, rfl, trivial, trivial⟩, trivial⟩⟩

theorem equalSuccessors_keys : KeysOk equalSuccessors.oram equalSuccessorsTree := by
  unfold KeysOk
  decide

theorem equalSuccessors_accepted : equalSuccessors.Accepted := ⟨4, 3, rfl⟩

/-- Deleting 10 puts 20 at the root, with the other 20 on its right. -/
theorem del_not_accepted : equalSuccessors.Holds equalSuccessorsTree ∧
    KeysOk equalSuccessors.oram equalSuccessorsTree ∧ equalSuccessors.oram.holds 0 = 0 ∧
    equalSuccessors.Accepted ∧ 2 ≤ equalSuccessors.numItems ∧
    (10, 1) ∈ pairs equalSuccessors.oram equalSuccessorsTree ∧
    ∃ b', equalSuccessors.del 10 = (true, b') ∧ ¬b'.Accepted := by
  have hstored : ((10, 1) : Value × Value) ∈ pairs equalSuccessors.oram equalSuccessorsTree :=
    mem_pairs.2 ⟨1, by decide, rfl⟩
  have hsearch : equalSuccessors.Searchable equalSuccessorsTree 10 :=
    ⟨equalSuccessors_holds, rfl, fun a ha => (equalSuccessors_keys a ha).2, by decide, by decide⟩
  obtain ⟨b', hdel, _, hiff⟩ :=
    hsearch.del_accepted equalSuccessors_accepted (by decide) ⟨_, hstored, rfl⟩
  refine ⟨equalSuccessors_holds, equalSuccessors_keys, rfl, equalSuccessors_accepted, by decide,
    hstored, b', hdel, fun haccepted => ?_⟩
  have hsame := hiff.1 haccepted 1 _ _ rfl (by simp) (by simp) 4 (by decide) rfl
  exact absurd hsame (by decide)

theorem del_accepted_iff_five : ∃ b', equalSuccessors.del 5 = (true, b') ∧ b'.Accepted := by
  have hstored : ((5, 3) : Value × Value) ∈ pairs equalSuccessors.oram equalSuccessorsTree :=
    mem_pairs.2 ⟨3, by decide, rfl⟩
  obtain ⟨b', hdel, hiff⟩ := @del_accepted_iff _ _ _ equalSuccessors_holds equalSuccessors_accepted
    equalSuccessors_keys rfl (by decide) 5 ⟨_, hstored, rfl⟩
  refine ⟨b', hdel, hiff.2 ?_⟩
  intro x l r heq hl
  have hleaf : equalSuccessors.treeFind equalSuccessorsTree 5 = .node 3 .nil .nil := rfl
  rw [hleaf] at heq
  cases heq
  exact absurd rfl hl

end BST

end Prac
