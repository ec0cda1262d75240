import Prac.BstRun

/-!
# Search trees of keys in the whole range

The comparison of two keys goes by the sign of their difference, so that keys far apart are not compared as
numbers, and a deletion may leave keys on the wrong side of a node.

* `above` — how far a key is above another one around `2 ^ 64`; `isAbove_iff_lt` — keys less than `2 ^ 63` above
  a common base are compared by it.
* `Windowed` — the keys on the right of a node are in such a window above its key, and in order.
* `Windowed.insertAt`, `Windowed.remove` — insertions and deletions keep it.
* `Packed` — the invariant of runs with keys of the whole range; `Packed.insert`, `Packed.del` — the steps
  keep it.
-/

namespace Prac

namespace BST

/-! ## Differences of keys -/

/-- How far the key of a node is above another key, around `2 ^ 64`. -/
def above (mem : Nodes) (base : Value) (addr : Nat) : Nat := (mem.key addr - base).toNat

/-- A key less than half the range above another one. -/
theorem isAbove_iff {mem : Nodes} {key : Value} {a : Nat} :
    isAbove mem key a = true ↔ key ≠ mem.key a ∧ (key - mem.key a).toNat < 2 ^ 63 := by
  have hmsb : (key - mem.key a).msb = false ↔ (key - mem.key a).toNat < 2 ^ 63 := by
    rw [BitVec.msb_eq_false_iff_two_mul_lt]
    omega
  rw [← hmsb, ← sub_ne_zero]
  exact decide_eq_true_iff

/-- Differences to a base that is below both. -/
theorem toNat_sub_base {x y base : Value} (h : (y - base).toNat ≤ (x - base).toNat) :
    (x - y).toNat = (x - base).toNat - (y - base).toNat := by
  rw [← sub_sub_sub_cancel_right x y base]
  exact BitVec.toNat_sub_of_le (BitVec.le_def.2 h)

/-- In a window the comparison is that of the differences to the base. -/
theorem isAbove_iff_lt {mem : Nodes} {key base : Value} {a : Nat} (hkey : (key - base).toNat < 2 ^ 63)
    (ha : above mem base a < 2 ^ 63) : isAbove mem key a = true ↔ above mem base a < (key - base).toNat := by
  rw [isAbove_iff]
  rcases lt_trichotomy (above mem base a) (key - base).toNat with hlt | heq | hgt
  · refine iff_of_true ⟨?_, ?_⟩ hlt
    · rintro rfl
      exact lt_irrefl _ hlt
    · rw [toNat_sub_base (le_of_lt hlt)]
      exact lt_of_le_of_lt (Nat.sub_le _ _) hkey
  · refine iff_of_false (fun h => h.1 ?_) (Nat.not_lt.2 heq.ge)
    exact sub_left_injective (BitVec.eq_of_toNat_eq heq.symm)
  · refine iff_of_false (fun h => ?_) (Nat.not_lt.2 hgt.le)
    -- the difference is negative
    have hback : (mem.key a - key).toNat = above mem base a - (key - base).toNat :=
      toNat_sub_base (le_of_lt hgt)
    have hneg : (key - mem.key a).toNat = 2 ^ 64 - (mem.key a - key).toNat := by
      rw [← neg_sub, BitVec.toNat_neg, Nat.mod_eq_of_lt (by omega)]
    have := h.2
    omega

/-- A key is not above one in the window that begins with it. -/
theorem isAbove_eq_false {mem : Nodes} {key : Value} {a : Nat} (h : above mem key a < 2 ^ 63) :
    isAbove mem key a = false := by
  have hself : (key - key).toNat = 0 := by
    rw [sub_self]
    rfl
  refine Bool.eq_false_iff.2 fun habove => ?_
  have hlt := (isAbove_iff_lt (hself ▸ by decide) h).1 habove
  omega

/-! ## Trees -/

/-- The keys on the right of a node are less than `2^63` above its key, and in the order of the differences.
For the nodes below those, this follows. -/
def Windowed (mem : Nodes) : LinkedTree → Prop
  | .nil => True
  | .node a l r => (∀ x ∈ r.toList, above mem (mem.key a) x < 2 ^ 63) ∧
      r.Ordered (· ≤ ·) (above mem (mem.key a)) ∧ Windowed mem l

theorem Windowed.congr {mem mem' : Nodes} {t : LinkedTree} (h : Windowed mem t)
    (hsame : ∀ a ∈ t.toList, mem'.key a = mem.key a) : Windowed mem' t := by
  induction t with
  | nil => exact trivial
  | node a l r ihl _ =>
      obtain ⟨hwindow, hord, hl⟩ := h
      have habove : ∀ x ∈ r.toList, above mem' (mem'.key a) x = above mem (mem.key a) x := by
        intro x hx
        rw [above, above, hsame a (by simp), hsame x (LinkedTree.mem_node.2 (.inr (.inr hx)))]
      refine ⟨fun x hx => ?_, hord.congr habove, ihl hl fun x hx => hsame x (LinkedTree.mem_node.2 (.inl hx))⟩
      rw [habove x hx]
      exact hwindow x hx

/-- The order of the differences to another base, which is below all of the keys. -/
theorem ordered_rebase {mem : Nodes} {base base' : Value} {t : LinkedTree}
    (h : t.Ordered (· ≤ ·) (above mem base)) (hle : ∀ x ∈ t.toList, (base' - base).toNat ≤ above mem base x) :
    t.Ordered (· ≤ ·) (above mem base') := by
  rw [LinkedTree.ordered_le_iff] at h ⊢
  refine h.imp_of_mem fun {x y} hx hy hxy => ?_
  have hx' : above mem base' x = above mem base x - (base' - base).toNat := toNat_sub_base (hle x hx)
  have hy' : above mem base' y = above mem base y - (base' - base).toNat := toNat_sub_base (hle y hy)
  omega

/-- A tree that is in order in one window. -/
theorem windowed_of_ordered {mem : Nodes} {base : Value} {t : LinkedTree}
    (hwindow : ∀ x ∈ t.toList, above mem base x < 2 ^ 63) (hord : t.Ordered (· ≤ ·) (above mem base)) :
    Windowed mem t := by
  induction t with
  | nil => exact trivial
  | node a l r ihl _ =>
      obtain ⟨_, hge, hl, hr⟩ := hord
      refine ⟨fun x hx => ?_, ordered_rebase hr hge, ihl (fun x hx => hwindow x ?_) hl⟩
      · have hx' : above mem (mem.key a) x = above mem base x - above mem base a := toNat_sub_base (hge x hx)
        have := hwindow x (LinkedTree.mem_node.2 (.inr (.inr hx)))
        omega
      · exact LinkedTree.mem_node.2 (.inl hx)

/-- The keys on the right of any node of the tree are in the window above its key. -/
theorem Windowed.find {mem : Nodes} {found right : Nat → Bool} {t : LinkedTree} (h : Windowed mem t) {x : Nat}
    {lx rx : LinkedTree} (hfind : t.find found right = .node x lx rx) :
    ∀ y ∈ rx.toList, above mem (mem.key x) y < 2 ^ 63 := by
  induction t with
  | nil => cases hfind
  | node a l r ihl ihr =>
      rw [LinkedTree.find] at hfind
      split at hfind
      · cases hfind
        exact h.1
      · split at hfind
        · exact ihr (windowed_of_ordered h.1 h.2.1) hfind
        · exact ihl h.2.2 hfind

/-- A new leaf where the comparisons lead. -/
theorem Windowed.insertAt {mem : Nodes} {new : Nat} {t : LinkedTree} (h : Windowed mem t) :
    Windowed mem (t.insertAt (isAbove mem (mem.key new)) new) := by
  induction t with
  | nil => exact ⟨by simp, trivial, trivial⟩
  | node a l r ihl _ =>
      obtain ⟨hwindow, hord, hl⟩ := h
      rw [LinkedTree.insertAt]
      cases hdir : isAbove mem (mem.key new) a with
      | false => exact ⟨hwindow, hord, ihl hl⟩
      | true =>
          have hnew : above mem (mem.key a) new < 2 ^ 63 := (isAbove_iff.1 hdir).2
          have hsame : r.insertAt (isAbove mem (mem.key new)) new = r.insertAt
              (fun x => decide (above mem (mem.key a) x < above mem (mem.key a) new)) new := by
            refine LinkedTree.insertAt_congr fun x hx => ?_
            rw [Bool.eq_iff_iff, isAbove_iff_lt hnew (hwindow x hx)]
            exact decide_eq_true_iff.symm
          rw [if_pos rfl, hsame]
          refine ⟨fun x hx => ?_, hord.insertAt fun _ _ => le_of_lt, hl⟩
          rcases LinkedTree.mem_insertAt.1 hx with rfl | hx
          · exact hnew
          · exact hwindow x hx

/-- The root is removed, or takes over the key of its successor, which is the least on its right. -/
theorem Windowed.removeRoot {mem mem' : Nodes} {a : Nat} {l r : LinkedTree} (h : Windowed mem (.node a l r))
    (hal : a ∉ l.toList) (har : a ∉ r.toList) (hmoved : ∀ y ∈ (LinkedTree.node a l r).removeRoot.toList,
      mem'.key y = mem.key (if y = a then (LinkedTree.node a l r).vacated else y)) :
    Windowed mem' (LinkedTree.node a l r).removeRoot := by
  obtain ⟨hwindow, hord, hl⟩ := h
  by_cases hone : l = .nil ∨ r = .nil
  · have hsame : ∀ y ∈ (LinkedTree.node a l r).removeRoot.toList, mem'.key y = mem.key y := by
      intro y hy
      rw [hmoved y hy, LinkedTree.vacated, if_pos hone]
      split
      · rename_i hya
        rw [hya]
      · rfl
    refine Windowed.congr ?_ hsame
    rcases hone with rfl | rfl
    · exact windowed_of_ordered hwindow hord
    · cases l with
      | nil => exact trivial
      | node b l' r' => exact hl
  · rw [not_or] at hone
    rw [LinkedTree.vacated, if_neg (not_or.2 hone), LinkedTree.removeRoot_node hone.1 hone.2] at hmoved
    rw [LinkedTree.removeRoot_node hone.1 hone.2]
    have hself : mem'.key a = mem.key r.minAddr := by rw [hmoved a (by simp), if_pos rfl]
    have hleft : ∀ y ∈ l.toList, mem'.key y = mem.key y := by
      intro y hy
      have hya : y ≠ a := fun hya => hal (hya ▸ hy)
      rw [hmoved y (LinkedTree.mem_node.2 (.inl hy)), if_neg hya]
    have hright : ∀ y ∈ r.deleteMin.toList, above mem' (mem'.key a) y = above mem (mem.key r.minAddr) y := by
      intro y hy
      have hya : y ≠ a := fun hya => har (hya ▸ LinkedTree.mem_of_mem_deleteMin hy)
      rw [above, above, hself, hmoved y (LinkedTree.mem_node.2 (.inr (.inr hy))), if_neg hya]
    have hmin : ∀ y ∈ r.deleteMin.toList, above mem (mem.key a) r.minAddr ≤ above mem (mem.key a) y :=
      fun y hy => hord.minAddr_le (fun _ _ h => h) (LinkedTree.mem_of_mem_deleteMin hy)
    refine ⟨fun y hy => ?_, (ordered_rebase hord.deleteMin hmin).congr hright, hl.congr hleft⟩
    have hsub : above mem (mem.key r.minAddr) y =
        above mem (mem.key a) y - above mem (mem.key a) r.minAddr := toNat_sub_base (hmin y hy)
    have hlt := hwindow y (LinkedTree.mem_of_mem_deleteMin hy)
    rw [hright y hy, hsub]
    omega

/-- Without the node found, which takes over the key of the node whose place is vacated. -/
theorem Windowed.remove {mem mem' : Nodes} {found right : Nat → Bool} {t : LinkedTree} (h : Windowed mem t)
    (hnodup : t.toList.Nodup) {x : Nat} {lx rx : LinkedTree} (hfind : t.find found right = .node x lx rx)
    (hmoved : ∀ a ∈ (t.remove found right).toList,
      mem'.key a = mem.key (if a = x then (LinkedTree.node x lx rx).vacated else a)) :
    Windowed mem' (t.remove found right) := by
  induction t with
  | nil => cases hfind
  | node a l r ihl _ =>
      rw [LinkedTree.toList_node, List.nodup_append, List.nodup_cons] at hnodup
      obtain ⟨hndl, ⟨har, hndr⟩, hcross⟩ := hnodup
      have hal : a ∉ l.toList := fun hal => hcross a hal a (by simp) rfl
      have hlr : ∀ y ∈ l.toList, y ∉ r.toList := fun y hy hyr =>
        hcross y hy y (List.mem_cons_of_mem _ hyr) rfl
      -- the nodes that trade keys are on the side on which the node is found
      have hbelow : ∀ s : LinkedTree, s.find found right = .node x lx rx →
          x ∈ s.toList ∧ (LinkedTree.node x lx rx).vacated ∈ s.toList := by
        intro s hs
        have hperm := @LinkedTree.perm_remove found right s (by simp [hs])
        rw [hs] at hperm
        exact ⟨LinkedTree.mem_of_find hs, hperm.mem_iff.2 List.mem_cons_self⟩
      rw [LinkedTree.find] at hfind
      rw [LinkedTree.remove] at hmoved ⊢
      split at hfind
      · rename_i hfound
        rw [if_pos hfound] at hmoved ⊢
        cases hfind
        exact h.removeRoot hal har hmoved
      · rename_i hfound
        rw [if_neg hfound] at hmoved ⊢
        obtain ⟨hwindow, hord, hl⟩ := h
        split at hfind
        · rename_i hdir
          rw [if_pos hdir] at hmoved ⊢
          obtain ⟨hx, hvac⟩ := hbelow r hfind
          have hax : a ≠ x := fun hax => har (hax ▸ hx)
          have hself : mem'.key a = mem.key a := by rw [hmoved a (by simp), if_neg hax]
          have hleft : ∀ y ∈ l.toList, mem'.key y = mem.key y := by
            intro y hy
            have hyx : y ≠ x := fun hyx => hlr y hy (hyx ▸ hx)
            rw [hmoved y (LinkedTree.mem_node.2 (.inl hy)), if_neg hyx]
          have hright : ∀ y ∈ (r.remove found right).toList, above mem' (mem'.key a) y =
              above mem (mem.key a) (if y = x then (LinkedTree.node x lx rx).vacated else y) := by
            intro y hy
            rw [above, above, hself, hmoved y (LinkedTree.mem_node.2 (.inr (.inr hy)))]
          refine ⟨fun y hy => ?_, hord.moved hndr hfind hright, hl.congr hleft⟩
          rw [hright y hy]
          split
          · exact hwindow _ hvac
          · exact hwindow y (LinkedTree.mem_of_mem_remove hy)
        · rename_i hdir
          rw [if_neg hdir] at hmoved ⊢
          obtain ⟨hx, _⟩ := hbelow l hfind
          have hax : a ≠ x := fun hax => hal (hax ▸ hx)
          have hself : mem'.key a = mem.key a := by rw [hmoved a (by simp), if_neg hax]
          have hright : ∀ y ∈ r.toList, above mem' (mem'.key a) y = above mem (mem.key a) y := by
            intro y hy
            have hyx : y ≠ x := fun hyx => hlr x hx (hyx ▸ hy)
            rw [above, above, hself, hmoved y (LinkedTree.mem_node.2 (.inr (.inr hy))), if_neg hyx]
          refine ⟨fun y hy => ?_, hord.congr hright,
            ihl hl hndl hfind fun y hy => hmoved y (LinkedTree.mem_node.2 (.inl hy))⟩
          rw [hright y hy]
          exact hwindow y hy

/-! ## The invariant -/

variable {oramSize : Nat}

theorem Holds.eq_nil {b : BST oramSize} {t : LinkedTree} (h : b.Holds t) (hcount : b.numItems = 0) :
    t.toList = [] :=
  List.length_eq_zero_iff.1 (h.count.symm.trans hcount)

/-- Two nodes with one key are the same. -/
theorem eq_of_key {b : BST oramSize} {t : LinkedTree} (hdistinct : ((pairs b.oram t).map Prod.fst).Nodup)
    {x y : Nat} (hx : x ∈ t.toList) (hy : y ∈ t.toList) (hkey : b.oram.key x = b.oram.key y) : x = y := by
  have hkeys : (t.toList.map fun a => (pairOf b.oram a).1).Nodup := by
    rwa [pairs, Multiset.map_coe, Multiset.coe_nodup, List.map_map] at hdistinct
  exact List.inj_on_of_nodup_map hkeys hx hy hkey

/-- The keys are all different, the comparisons lead to successors, and the addresses are in range. -/
structure Packed (b : BST oramSize) (t : LinkedTree) : Prop where
  holds : b.Holds t
  zero : b.oram.holds 0 = 0
  distinct : ((pairs b.oram t).map Prod.fst).Nodup
  windowed : Windowed b.oram t
  placed : b.Placed t

theorem Packed.init : (init : BST oramSize).Packed .nil :=
  ⟨Sound.init.holds, rfl, Multiset.nodup_zero, trivial, Sound.init.formed.placed⟩

/-- An insertion of a new key into a free slot keeps the invariant, and takes an address or one more. -/
theorem Packed.insert {b b' : BST oramSize} {t : LinkedTree} (h : b.Packed t) {key value : Value}
    (hnew : ∀ a ∈ t.toList, b.oram.key a ≠ key) (hfree : b.SlotFree t)
    (hins : b.insert (newNode key value) = some b') :
    b'.Packed (t.insertAt (isAbove b.oram key) b.slot) ∧
      (b'.addresses (t.insertAt (isAbove b.oram key) b.slot)).Perm
        (if b.numItems = 0 ∨ b.emptyLocations = [] then b.slot :: b.addresses t else b.addresses t) := by
  obtain ⟨b₁, hins₁, hholds, hsame, hkey, hvalue, hzero, hlocations⟩ :=
    @insert_leaf _ _ _ h.holds hfree (newNode key value) rfl
  obtain rfl : b₁ = b' := Option.some.inj (hins₁.symm.trans hins)
  have hperm := h.placed.addresses_insert h.holds (@LinkedTree.perm_insertAt (isAbove b.oram key) _ t) hlocations
  refine ⟨⟨hholds, hzero.trans h.zero, ?_, ?_, h.placed.insert h.holds hfree hperm⟩, hperm⟩
  · rw [pairs_insertAt hsame hkey hvalue, Multiset.map_cons, Multiset.nodup_cons]
    refine ⟨fun hin => ?_, h.distinct⟩
    obtain ⟨p, hp, hpk⟩ := Multiset.mem_map.1 hin
    obtain ⟨a, ha, rfl⟩ := mem_pairs.1 hp
    exact hnew a ha hpk
  · have hdir : t.insertAt (isAbove b.oram key) b.slot =
        t.insertAt (isAbove b₁.oram (b₁.oram.key b.slot)) b.slot :=
      LinkedTree.insertAt_congr fun a ha => by rw [isAbove, isAbove, (hsame a ha).1, hkey]; rfl
    rw [hdir]
    exact (h.windowed.congr fun a ha => (hsame a ha).1).insertAt

/-- A deletion that finds the key keeps the invariant and the addresses. -/
theorem Packed.del_found {b : BST oramSize} {t : LinkedTree} (h : b.Packed t) {key : Value} (hkey : key ≠ 0)
    (hitems : 2 ≤ b.numItems) {x : Nat} {lx rx : LinkedTree}
    (hfind : t.find (isKey b.oram key) (isAbove b.oram key) = .node x lx rx) :
    (b.del key).2.Packed (t.remove (isKey b.oram key) (isAbove b.oram key)) ∧
      ((b.del key).2.addresses (t.remove (isKey b.oram key) (isAbove b.oram key))).Perm (b.addresses t) := by
  have hne : t ≠ .nil := by
    rintro rfl
    cases hfind
  have hnodup := (h.holds.tree hne).nodup
  have hsome : t.find (isKey b.oram key) (isAbove b.oram key) ≠ .nil := by simp [hfind]
  have hin : ∀ a ∈ (LinkedTree.node x lx rx).toList, a ∈ t.toList := by
    rw [← hfind]
    exact fun a => LinkedTree.mem_of_mem_find
  have hroot : key = b.oram.key x := by
    have hfound := LinkedTree.found_find hsome
    rw [hfind] at hfound
    exact of_decide_eq_true hfound
  have hquiet : (LinkedTree.node x lx rx).QuietBelow (isKey b.oram key) (isAbove b.oram key) := by
    refine LinkedTree.quietBelow_of_unique (hfind ▸ LinkedTree.nodup_find hnodup) fun a ha hfound => ?_
    exact eq_of_key h.distinct (hin a ha) (hin x (by simp)) ((of_decide_eq_true hfound).symm.trans hroot)
  obtain ⟨b', hdel, htook⟩ := BST.del_found h.holds h.zero hkey hitems hfind
    (fun a ha => isAbove_eq_false (hroot ▸ h.windowed.find hfind a ha)) hquiet
  have hperm := htook.addresses_perm (hfind ▸ LinkedTree.perm_remove hsome)
  have hmoved := htook.moved
  rw [hdel]
  rw [← hfind] at hmoved
  refine ⟨⟨htook.holds, htook.zero, ?_, ?_, h.placed.perm hperm⟩, hperm⟩
  · have hdistinct := h.distinct
    rw [pairs_moved hnodup hsome hmoved, Multiset.map_cons, Multiset.nodup_cons] at hdistinct
    exact hdistinct.2
  · exact h.windowed.remove hnodup hfind fun a ha => congrArg Prod.fst (htook.moved a ha)

/-- A deletion keeps the invariant and the addresses. -/
theorem Packed.del {b : BST oramSize} {t : LinkedTree} (h : b.Packed t) {key : Value} (hkey : key ≠ 0) :
    ∃ t', (b.del key).2.Packed t' ∧ ((b.del key).2.addresses t').Perm (b.addresses t) := by
  by_cases hone : b.numItems = 1
  · obtain ⟨hholds, hzero, haddresses⟩ := h.holds.del_last h.zero hone key
    exact ⟨.nil, ⟨hholds, hzero, Multiset.nodup_zero, trivial, h.placed.perm haddresses⟩, haddresses⟩
  cases hfind : t.find (isKey b.oram key) (isAbove b.oram key) with
  | nil =>
      rw [h.holds.del_not_found h.zero hkey (LinkedTree.find_eq_nil_iff_path.1 hfind) hone]
      exact ⟨t, h, .refl _⟩
  | node x lx rx =>
      have hitems : 2 ≤ b.numItems := by
        have hcount : b.numItems ≠ 0 := by
          intro h0
          have hin := LinkedTree.mem_of_find hfind
          rw [h.holds.eq_nil h0] at hin
          cases hin
        omega
      exact ⟨_, h.del_found hkey hitems hfind⟩

end BST

end Prac
