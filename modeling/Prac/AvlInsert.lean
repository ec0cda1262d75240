import Prac.AvlTree

/-!
# AVL insertion

* `AVL.fixInsert_single`, `AVL.fixInsert_double` — the words after the rotations at the end of `insert`.
* `AVL.applyFix` — the memory after them, and `AVL.Leaning.fixed` — they repair a node one of whose
  subtrees has become too high.
* `AVL.Outcome`, `AVL.insertRec_spec` — what the recursion leaves: an AVL tree with the new leaf, or the
  one node that is to be repaired.
-/

namespace Prac

namespace AVL

open LinkedTree (branch)

variable {oramSize : Nat}

/-! ## The words after the rotations -/

theorem fixInsert_quiet (F_gp : Bool) : fixInsert .init F_gp 0 ⟨0, 0, 0, 0⟩ = ⟨0, 0, 0, 0⟩ := by
  have hzero : setRightBal (setLeftBal 0 false) false = (0 : Value) := by decide
  have hl : getLeftBal (0 : Value) = false := bal_zero false
  have hr : getRightBal (0 : Value) = false := bal_zero true
  simp only [fixInsert, InsertReturn.init, Bool.false_and, rotate_false, select_false, hl, hr, hzero]

section Words

variable {ret : InsertReturn} {F_gp d : Bool} {n_node : Value} {w : FourPointers}
  (himb : ret.imbalance = true) (hpc : ret.dir_pc = d) (hp : ret.p_node.toNat < 2 ^ 31)
  (hc : ret.c_node.toNat < 2 ^ 31)
include himb hpc hp hc

/-- The child leans the same way: one rotation. -/
theorem fixInsert_single (hcn : ret.dir_cn = d) :
    let new := fixInsert ret F_gp n_node w
    new.gp = (if F_gp then w.gp else setLink ret.dir_gpp w.gp ret.c_node) ∧
      Fields d new.parent (link (!d) w.child) (link (!d) w.parent) (bal d w.parent) (bal (!d) w.parent) ∧
      Fields d new.child (link d w.child) ret.p_node false false ∧ new.n = w.n := by
  intro new
  have hl : (link (!d) w.child).toNat < 2 ^ 31 := link_lt _ _
  have hnew : new = ⟨if F_gp then w.gp else setLink ret.dir_gpp w.gp ret.c_node,
      setLink d w.parent (link (!d) w.child),
      setRightBal (setLeftBal (setLink (!d) w.child ret.p_node) false) false, w.n⟩ := by
    simp only [new, fixInsert, himb, hpc, hcn, Bool.xor_self, Bool.and_false, Bool.false_and,
      rotate_false, selectBits, select_false, select_true, and_mask hc, rotate_true hp hc, setBals_self]
    cases d <;> simp only [select_false, select_true, setBals_self]
  rw [hnew]
  refine ⟨rfl, ⟨?_, ?_, ?_, ?_⟩, ⟨?_, ?_, ?_, ?_⟩, rfl⟩
  · simp [link_setLink hl]
  · simp [link_setLink hl]
  · simp [bal_setLink hl]
  · simp [bal_setLink hl]
  · simp [link_setLink hp]
  · simp [link_setLink hp]
  · simp [select]
  · simp [select]

/-- The child leans the other way: its child `n` is rotated up twice. -/
theorem fixInsert_double (hcn : ret.dir_cn = !d) (hn : n_node.toNat < 2 ^ 31) :
    let new := fixInsert ret F_gp n_node w
    let leaf := decide (link false w.n = 0) && decide (link true w.n = 0)
    new.gp = (if F_gp then w.gp else setLink ret.dir_gpp w.gp n_node) ∧
      Fields d new.parent (link (!d) w.n) (link (!d) w.parent) (bal d w.parent)
        (select leaf (!bal (!d) w.n) (bal (!d) w.parent)) ∧
      Fields d new.child (link d w.child) (link d w.n) (!leaf && !bal d w.n) false ∧
      Fields d new.n ret.c_node ret.p_node false false := by
  intro new leaf
  have hl : ∀ d w, (link d w).toNat < 2 ^ 31 := link_lt
  have hxor : (d ^^ !d) = true := by cases d <;> rfl
  have hfar : link (!d) (setLink d w.n ret.c_node) = link (!d) w.n := by
    rw [link_setLink hc, if_neg (by simp)]
  have hleaf : (decide (getAVLLeftPtr w.n = 0) && decide (getAVLRightPtr w.n = 0)) = leaf := rfl
  have hnew : new = ⟨if F_gp then w.gp else setLink ret.dir_gpp w.gp n_node,
      setRightBal (setLeftBal (setLink d (setLink d w.parent n_node) (link (!d) w.n))
        (select d (bal false w.parent) (select leaf (!bal (!d) w.n) (bal (!d) w.parent))))
        (select d (select leaf (!bal (!d) w.n) (bal (!d) w.parent)) (bal true w.parent)),
      setRightBal (setLeftBal (setLink (!d) w.child (link d w.n)) (select d (!leaf && !bal d w.n) false))
        (select d false (!leaf && !bal d w.n)),
      setRightBal (setLeftBal (setLink (!d) (setLink d w.n ret.c_node) ret.p_node) false) false⟩ := by
    simp only [new, fixInsert, himb, hpc, hcn, Bool.and_true, Bool.true_and, hxor, selectBits,
      select_true, and_mask hn, rotate_true hp hn, rotate_true hc hn, Bool.not_not, Bool.false_eq_true,
      if_false, hfar, hleaf]
    cases d <;> cases hleaf' : leaf <;>
      simp [getLeftBal_eq_bal, getRightBal_eq_bal, bal_setLink (hl _ _), bal_setLink hn]
  rw [hnew]
  refine ⟨rfl, ⟨?_, ?_, ?_, ?_⟩, ⟨?_, ?_, ?_, ?_⟩, ⟨?_, ?_, ?_, ?_⟩⟩
  · simp [link_setLink (hl _ _)]
  · simp [link_setLink (hl _ _), link_setLink hn]
  · cases d <;> simp
  · cases d <;> simp
  · simp [link_setLink (hl _ _)]
  · simp [link_setLink (hl _ _)]
  · cases d <;> simp
  · cases d <;> simp
  · simp [link_setLink hp, link_setLink hc]
  · simp [link_setLink hp]
  · simp [select]
  · simp [select]

end Words

/-! ## The memory after the rotations -/

/-- `n_node`. -/
def nNode (mem : Nodes) (ret : InsertReturn) : Value := link ret.dir_cn (mem.pointers ret.c_node.toNat)

/-- The links that `fixInsert` gets. -/
def fourPointers (mem : Nodes) (ret : InsertReturn) : FourPointers :=
  ⟨mem.pointers ret.gp_node.toNat, mem.pointers ret.p_node.toNat, mem.pointers ret.c_node.toNat,
    mem.pointers (nNode mem ret).toNat⟩

/-- The memory with the four nodes fixed. -/
def applyFix (mem : Nodes) (ret : InsertReturn) (F_gp : Bool) : Nodes :=
  let new := fixInsert ret F_gp (nNode mem ret) (fourPointers mem ret)
  let mem' := setPointers mem ret.c_node.toNat new.child
  let mem' := setPointers mem' ret.p_node.toNat new.parent
  let mem' := setPointers mem' ret.gp_node.toNat new.gp
  setPointers mem' (nNode mem ret).toNat new.n

/-- The four nodes are different ones. -/
structure Apart (mem : Nodes) (ret : InsertReturn) : Prop where
  gp_p : ret.gp_node.toNat ≠ ret.p_node.toNat
  gp_c : ret.gp_node.toNat ≠ ret.c_node.toNat
  gp_n : ret.gp_node.toNat ≠ (nNode mem ret).toNat
  p_c : ret.p_node.toNat ≠ ret.c_node.toNat
  p_n : ret.p_node.toNat ≠ (nNode mem ret).toNat
  c_n : ret.c_node.toNat ≠ (nNode mem ret).toNat

theorem applyFix_n (mem : Nodes) (ret : InsertReturn) (F_gp : Bool) :
    (applyFix mem ret F_gp).pointers (nNode mem ret).toNat =
      (fixInsert ret F_gp (nNode mem ret) (fourPointers mem ret)).n :=
  Function.update_self _ _ _

section Fix

variable {mem : Nodes} {ret : InsertReturn} (h : Apart mem ret) (F_gp : Bool)
include h

theorem Apart.fixed_gp : (applyFix mem ret F_gp).pointers ret.gp_node.toNat =
    (fixInsert ret F_gp (nNode mem ret) (fourPointers mem ret)).gp := by
  simp only [applyFix, setPointers_pointers]
  rw [Function.update_of_ne h.gp_n, Function.update_self]

theorem Apart.fixed_p : (applyFix mem ret F_gp).pointers ret.p_node.toNat =
    (fixInsert ret F_gp (nNode mem ret) (fourPointers mem ret)).parent := by
  simp only [applyFix, setPointers_pointers]
  rw [Function.update_of_ne h.p_n, Function.update_of_ne h.gp_p.symm, Function.update_self]

theorem Apart.fixed_c : (applyFix mem ret F_gp).pointers ret.c_node.toNat =
    (fixInsert ret F_gp (nNode mem ret) (fourPointers mem ret)).child := by
  simp only [applyFix, setPointers_pointers]
  rw [Function.update_of_ne h.c_n, Function.update_of_ne h.gp_c.symm, Function.update_of_ne h.p_c.symm,
    Function.update_self]

end Fix

theorem applyFix_other {mem : Nodes} {ret : InsertReturn} (F_gp : Bool) {a : Nat}
    (hgp : a ≠ ret.gp_node.toNat) (hp : a ≠ ret.p_node.toNat) (hc : a ≠ ret.c_node.toNat)
    (hn : a ≠ (nNode mem ret).toNat) : (applyFix mem ret F_gp).pointers a = mem.pointers a := by
  simp only [applyFix, setPointers_pointers]
  rw [Function.update_of_ne hn, Function.update_of_ne hgp, Function.update_of_ne hp,
    Function.update_of_ne hc]

/-- The node `p_node`, whose bits are cleared, has the subtree of `c_node` two levels higher than its other
subtree `z`; there the subtree `y` is the higher one. -/
structure Leaning (mem : Nodes) (ret : InsertReturn) (y u z : LinkedTree) : Prop where
  imbalance : ret.imbalance = true
  p_fits : ret.p_node.toNat < 2 ^ 31
  p_ne_zero : ret.p_node.toNat ≠ 0
  near : link ret.dir_pc (mem.pointers ret.p_node.toNat) = ret.c_node
  far : (link (!ret.dir_pc) (mem.pointers ret.p_node.toNat)).toNat = z.root
  bits : ∀ e, bal e (mem.pointers ret.p_node.toNat) = false
  avl_near : (branch ret.dir_cn ret.c_node.toNat y u).Avl (linkOf mem) (balOf mem)
  avl_far : z.Avl (linkOf mem) (balOf mem)
  height_y : y.height = z.height + 1
  height_u : u.height = z.height
  lopsided : y.Lopsided
  nodup : (branch ret.dir_pc ret.p_node.toNat (branch ret.dir_cn ret.c_node.toNat y u) z).toList.Nodup

theorem link_eq_zero {d : Bool} {word : Value} {t : LinkedTree} {mem : Nodes}
    (hlink : (link d word).toNat = t.root) (ht : t.Avl (linkOf mem) (balOf mem)) :
    link d word = 0 ↔ t = .nil := by
  rw [← ht.stored.root_eq_zero, ← hlink]
  exact BitVec.toNat_inj.symm

/-- The test for the children of `n`. -/
theorem leaf_eq {d : Bool} {word : Value} {s w : LinkedTree} {mem : Nodes}
    (hnear : (link d word).toNat = s.root) (hfar : (link (!d) word).toNat = w.root)
    (hs : s.Avl (linkOf mem) (balOf mem)) (hw : w.Avl (linkOf mem) (balOf mem)) :
    (decide (link false word = 0) && decide (link true word = 0)) = decide (s = .nil ∧ w = .nil) := by
  rw [← Bool.decide_and, decide_eq_decide, ← link_eq_zero hnear hs, ← link_eq_zero hfar hw]
  cases d with
  | false => exact Iff.rfl
  | true => exact And.comm

/-- The node that takes the place of `p_node`. -/
def topNode (mem : Nodes) (ret : InsertReturn) : Value :=
  select (ret.dir_pc ^^ ret.dir_cn) ret.c_node (nNode mem ret)

namespace Leaning

variable {mem : Nodes} {ret : InsertReturn} {y u z : LinkedTree} (h : Leaning mem ret y u z)
include h

theorem c_fits : ret.c_node.toNat < 2 ^ 31 := by
  rw [← h.near]
  exact link_lt _ _

theorem n_root : (nNode mem ret).toNat = y.root :=
  (LinkedTree.Avl.branch_iff.1 h.avl_near).2.1

theorem y_ne_nil : y ≠ .nil := by
  intro hy
  have hh := h.height_y
  rw [hy] at hh
  simp at hh

theorem n_mem : (nNode mem ret).toNat ∈ y.toList := by
  rw [h.n_root]
  exact LinkedTree.root_mem h.y_ne_nil

/-- The four nodes are different ones, if the grandparent is not in the tree. -/
theorem apart (hgp : ret.gp_node.toNat ∉
    (branch ret.dir_pc ret.p_node.toNat (branch ret.dir_cn ret.c_node.toNat y u) z).toList) :
    Apart mem ret := by
  obtain ⟨hpx, _, hx, _, _⟩ := LinkedTree.nodup_branch.1 h.nodup
  obtain ⟨hcy, _, _, _, _⟩ := LinkedTree.nodup_branch.1 hx
  have hn := h.n_mem
  simp only [LinkedTree.mem_branch, not_or] at hgp hpx
  refine ⟨hgp.1, hgp.2.1.1, fun hgn => ?_, hpx.1, fun hpn => ?_, fun hcn => ?_⟩
  · exact hgp.2.1.2.1 (hgn ▸ hn)
  · exact hpx.2.1 (hpn ▸ hn)
  · exact hcy (hcn ▸ hn)

/-- The subtrees that are moved are not changed. -/
theorem avl_fixed (F_gp : Bool) (hgp : ret.gp_node.toNat ∉
    (branch ret.dir_pc ret.p_node.toNat (branch ret.dir_cn ret.c_node.toNat y u) z).toList)
    {s : LinkedTree} (hs : s.Avl (linkOf mem) (balOf mem))
    (hin : ∀ a ∈ s.toList, a ∈ y.toList ∨ a ∈ u.toList ∨ a ∈ z.toList)
    (hn : (nNode mem ret).toNat ∈ s.toList →
      (applyFix mem ret F_gp).pointers (nNode mem ret).toNat = mem.pointers (nNode mem ret).toNat) :
    s.Avl (linkOf (applyFix mem ret F_gp)) (balOf (applyFix mem ret F_gp)) := by
  obtain ⟨hpx, hpz, hx, _, hcross⟩ := LinkedTree.nodup_branch.1 h.nodup
  obtain ⟨hcy, hcu, _, _, _⟩ := LinkedTree.nodup_branch.1 hx
  have hcz := hcross ret.c_node.toNat (LinkedTree.mem_branch.2 (.inl rfl))
  simp only [LinkedTree.mem_branch, not_or] at hgp hpx
  refine avl_congr hs fun a ha => ?_
  by_cases han : a = (nNode mem ret).toNat
  · rw [han] at ha ⊢
    exact hn ha
  · have hne : ∀ b, b ∉ y.toList → b ∉ u.toList → b ∉ z.toList → a ≠ b := by
      rintro b hby hbu hbz rfl
      rcases hin a ha with hay | hau | haz
      · exact hby hay
      · exact hbu hau
      · exact hbz haz
    exact applyFix_other F_gp (hne _ hgp.2.1.2.1 hgp.2.1.2.2 hgp.2.2) (hne _ hpx.2.1 hpx.2.2 hpz)
      (hne _ hcy hcu hcz) han

theorem fixed_single (F_gp : Bool) (hdir : ret.dir_cn = ret.dir_pc) (hgp : ret.gp_node.toNat ∉
    (branch ret.dir_pc ret.p_node.toNat (branch ret.dir_cn ret.c_node.toNat y u) z).toList) :
    (branch ret.dir_pc ret.c_node.toNat y (branch ret.dir_pc ret.p_node.toNat u z)).Avl
        (linkOf (applyFix mem ret F_gp)) (balOf (applyFix mem ret F_gp)) ∧
      (applyFix mem ret F_gp).pointers ret.gp_node.toNat =
        if F_gp then mem.pointers ret.gp_node.toNat
        else setLink ret.dir_gpp (mem.pointers ret.gp_node.toNat) ret.c_node := by
  have hapart := h.apart hgp
  obtain ⟨hc0, hcnear, hcfar, _, _, _, _, hy, hu⟩ := LinkedTree.Avl.branch_iff.1 h.avl_near
  obtain ⟨hnewgp, hnewp, hnewc, hnewn⟩ := @fixInsert_single ret F_gp ret.dir_pc (nNode mem ret)
    (fourPointers mem ret) h.imbalance rfl h.p_fits h.c_fits hdir
  rw [← hapart.fixed_gp F_gp] at hnewgp
  rw [← hapart.fixed_p F_gp] at hnewp
  rw [← hapart.fixed_c F_gp] at hnewc
  rw [← applyFix_n mem ret F_gp] at hnewn
  have hkeep := fun {s : LinkedTree} hs hin => @avl_fixed mem ret y u z h F_gp hgp s hs hin fun _ => hnewn
  rw [hdir] at hcnear hcfar
  have hheights := And.intro h.height_y h.height_u
  refine ⟨avl_branch hc0 hnewc hcnear ?_ ?_ ?_ ?_ ?_ ?_ ?_, hnewgp⟩
  · exact LinkedTree.root_branch.symm
  · rw [LinkedTree.height_branch]
    omega
  · rw [LinkedTree.height_branch]
    omega
  · rw [LinkedTree.height_branch, eq_comm, decide_eq_false_iff_not]
    omega
  · rw [LinkedTree.height_branch, eq_comm, decide_eq_false_iff_not]
    omega
  · exact hkeep hy fun a ha => .inl ha
  · refine avl_branch h.p_ne_zero hnewp hcfar h.far ?_ ?_ ?_ ?_ ?_ ?_
    · omega
    · omega
    · exact (h.bits _).trans (decide_eq_false (by omega)).symm
    · exact (h.bits _).trans (decide_eq_false (by omega)).symm
    · exact hkeep hu fun a ha => .inr (.inl ha)
    · exact hkeep h.avl_far fun a ha => .inr (.inr ha)

theorem fixed_double (F_gp : Bool) (hdir : ret.dir_cn = !ret.dir_pc) (hgp : ret.gp_node.toNat ∉
    (branch ret.dir_pc ret.p_node.toNat (branch ret.dir_cn ret.c_node.toNat y u) z).toList)
    {s w : LinkedTree} (hyn : y = branch ret.dir_pc (nNode mem ret).toNat s w) :
    (branch ret.dir_pc (nNode mem ret).toNat (branch ret.dir_pc ret.c_node.toNat u s)
        (branch ret.dir_pc ret.p_node.toNat w z)).Avl
        (linkOf (applyFix mem ret F_gp)) (balOf (applyFix mem ret F_gp)) ∧
      (applyFix mem ret F_gp).pointers ret.gp_node.toNat =
        if F_gp then mem.pointers ret.gp_node.toNat
        else setLink ret.dir_gpp (mem.pointers ret.gp_node.toNat) (nNode mem ret) := by
  have hapart := h.apart hgp
  have hn_fits : (nNode mem ret).toNat < 2 ^ 31 := link_lt _ _
  obtain ⟨hc0, _, hcfar, _, _, _, _, hy, hu⟩ := LinkedTree.Avl.branch_iff.1 h.avl_near
  rw [hyn] at hy
  obtain ⟨hn0, hnnear, hnfar, hsw, hws, hbs, hbw, hs, hw⟩ := LinkedTree.Avl.branch_iff.1 hy
  obtain ⟨hnewgp, hnewp, hnewc, hnewn⟩ := @fixInsert_double ret F_gp ret.dir_pc (nNode mem ret)
    (fourPointers mem ret) h.imbalance rfl h.p_fits h.c_fits hdir hn_fits
  rw [← hapart.fixed_gp F_gp] at hnewgp
  rw [← hapart.fixed_p F_gp] at hnewp
  rw [← hapart.fixed_c F_gp] at hnewc
  rw [← applyFix_n mem ret F_gp] at hnewn
  have hndy := (LinkedTree.nodup_branch.1 (LinkedTree.nodup_branch.1 h.nodup).2.2.1).2.2.1
  rw [hyn] at hndy
  obtain ⟨hns, hnw, _, _, _⟩ := LinkedTree.nodup_branch.1 hndy
  have hnu : (nNode mem ret).toNat ∉ u.toList :=
    (LinkedTree.nodup_branch.1 (LinkedTree.nodup_branch.1 h.nodup).2.2.1).2.2.2.2 _ h.n_mem
  have hnz : (nNode mem ret).toNat ∉ z.toList :=
    (LinkedTree.nodup_branch.1 h.nodup).2.2.2.2 _ (LinkedTree.mem_branch.2 (.inr (.inl h.n_mem)))
  have hkeep := fun {t : LinkedTree} ht hin (hnt : _ ∉ t.toList) =>
    @avl_fixed mem ret y u z h F_gp hgp t ht hin fun hin => absurd hin hnt
  rw [hdir, Bool.not_not] at hcfar
  -- `n` has become higher on one side, unless it is the new leaf
  have hlop := h.lopsided
  have hheights := And.intro h.height_y h.height_u
  rw [hyn, LinkedTree.lopsided_branch] at hlop
  rw [hyn, LinkedTree.height_branch] at hheights
  have hbits := h.bits
  have hleaf : (decide (link false (fourPointers mem ret).n = 0) &&
      decide (link true (fourPointers mem ret).n = 0)) = decide (s = .nil ∧ w = .nil) :=
    leaf_eq hnnear hnfar hs hw
  rw [← LinkedTree.height_eq_zero, ← LinkedTree.height_eq_zero] at hlop
  simp only [← LinkedTree.height_eq_zero] at hleaf
  have hbs' : bal ret.dir_pc (fourPointers mem ret).n = decide (w.height < s.height) := hbs
  have hbw' : bal (!ret.dir_pc) (fourPointers mem ret).n = decide (s.height < w.height) := hbw
  have hbp : bal (!ret.dir_pc) (fourPointers mem ret).parent = false := h.bits _
  rw [hleaf] at hnewp hnewc
  refine ⟨avl_branch hn0 hnewn ?_ ?_ ?_ ?_ ?_ ?_ ?_ ?_, hnewgp⟩
  · exact LinkedTree.root_branch.symm
  · exact LinkedTree.root_branch.symm
  · simp only [LinkedTree.height_branch]
    omega
  · simp only [LinkedTree.height_branch]
    omega
  · simp only [LinkedTree.height_branch]
    exact (decide_eq_false (by omega)).symm
  · simp only [LinkedTree.height_branch]
    exact (decide_eq_false (by omega)).symm
  · refine avl_branch hc0 hnewc hcfar hnnear ?_ ?_ ?_ ?_ ?_ ?_
    · omega
    · omega
    · rw [hbs', ← decide_not, ← decide_not, ← Bool.decide_and, decide_eq_decide]
      omega
    · exact (decide_eq_false (by omega)).symm
    · exact hkeep hu (fun a ha => .inr (.inl ha)) hnu
    · exact hkeep hs (fun a ha => .inl (by rw [hyn]; exact LinkedTree.mem_branch.2 (.inr (.inl ha)))) hns
  · refine avl_branch h.p_ne_zero hnewp hnfar h.far ?_ ?_ ?_ ?_ ?_ ?_
    · omega
    · omega
    · exact (h.bits _).trans (decide_eq_false (by omega)).symm
    · rw [hbp, hbw', ← decide_not]
      rcases hlop with hnil | hne
      · rw [decide_eq_true hnil, select_true]
        exact (decide_eq_false (by omega)).symm
      · rw [decide_eq_false (by omega), select_false, decide_eq_decide]
        omega
    · exact hkeep hw (fun a ha => .inl (by rw [hyn]; exact LinkedTree.mem_branch.2 (.inr (.inr ha)))) hnw
    · exact hkeep h.avl_far (fun a ha => .inr (.inr ha)) hnz

theorem top_fits : (topNode mem ret).toNat < 2 ^ 31 := by
  unfold topNode select
  split
  · exact link_lt _ _
  · exact h.c_fits

theorem mem_tree : ∀ a, a = ret.p_node.toNat ∨ a = ret.c_node.toNat ∨ a = (nNode mem ret).toNat →
    a ∈ (branch ret.dir_pc ret.p_node.toNat (branch ret.dir_cn ret.c_node.toNat y u) z).toList := by
  rintro a (rfl | rfl | rfl)
  · exact LinkedTree.mem_branch.2 (.inl rfl)
  · exact LinkedTree.mem_branch.2 (.inr (.inl (LinkedTree.mem_branch.2 (.inl rfl))))
  · exact LinkedTree.mem_branch.2 (.inr (.inl (LinkedTree.mem_branch.2 (.inr (.inl h.n_mem)))))

theorem onlyLinks_fixed (F_gp : Bool) {s : List Nat} (hgp : ret.gp_node.toNat ∈ s)
    (hs : ∀ a ∈ (branch ret.dir_pc ret.p_node.toNat (branch ret.dir_cn ret.c_node.toNat y u) z).toList,
      a ∈ s) : OnlyLinks mem (applyFix mem ret F_gp) s := by
  have hp := hs _ (h.mem_tree _ (.inl rfl))
  have hc := hs _ (h.mem_tree _ (.inr (.inl rfl)))
  have hn := hs _ (h.mem_tree _ (.inr (.inr rfl)))
  exact ((((OnlyLinks.refl mem s).setPointers hc _).setPointers hp _).setPointers hgp _).setPointers hn _

/-- The rotations repair the tree: the same nodes in the same order, two levels above `z`. -/
theorem fixed (F_gp : Bool) (hgp : ret.gp_node.toNat ∉
    (branch ret.dir_pc ret.p_node.toNat (branch ret.dir_cn ret.c_node.toNat y u) z).toList) :
    ∃ t : LinkedTree, t.Avl (linkOf (applyFix mem ret F_gp)) (balOf (applyFix mem ret F_gp)) ∧
      t.toList = (branch ret.dir_pc ret.p_node.toNat (branch ret.dir_cn ret.c_node.toNat y u) z).toList ∧
      t.height = z.height + 2 ∧ t.root = (topNode mem ret).toNat ∧
      (applyFix mem ret F_gp).pointers ret.gp_node.toNat =
        if F_gp then mem.pointers ret.gp_node.toNat
        else setLink ret.dir_gpp (mem.pointers ret.gp_node.toNat) (topNode mem ret) := by
  have hheights := And.intro h.height_y h.height_u
  by_cases hdir : ret.dir_cn = ret.dir_pc
  · obtain ⟨havl, hword⟩ := h.fixed_single F_gp hdir hgp
    have htop : topNode mem ret = ret.c_node := by
      unfold topNode
      rw [hdir, Bool.xor_self, select_false]
    rw [htop]
    refine ⟨_, havl, ?_, ?_, LinkedTree.root_branch, hword⟩
    · rw [hdir]
      exact LinkedTree.toList_single _ _ _ _ _
    · simp only [LinkedTree.height_branch]
      omega
  · have hnot : ret.dir_cn = !ret.dir_pc := Bool.eq_not_of_ne hdir
    obtain ⟨s, w, hy⟩ := LinkedTree.exists_branch h.y_ne_nil ret.dir_pc
    rw [← h.n_root] at hy
    obtain ⟨havl, hword⟩ := h.fixed_double F_gp hnot hgp hy
    have htop : topNode mem ret = nNode mem ret := by
      unfold topNode
      rw [hnot, Bool.xor_not_self, select_true]
    rw [htop]
    refine ⟨_, havl, ?_, ?_, LinkedTree.root_branch, hword⟩
    · rw [hnot, hy]
      exact LinkedTree.toList_double _ _ _ _ _ _ _
    · have hbal := (LinkedTree.Avl.branch_iff.1 h.avl_near).2.2.2.2.2.2.2.1
      rw [hy] at hheights hbal
      obtain ⟨_, _, _, hsw, hws, _⟩ := LinkedTree.Avl.branch_iff.1 hbal
      rw [LinkedTree.height_branch] at hheights
      simp only [LinkedTree.height_branch]
      omega

end Leaning

/-! ## The recursion -/

theorem compareKeys_fst (k1 k2 : Value) : (compareKeys k1 k2).1 = !(compareKeys k1 k2).2 := by
  unfold compareKeys signedCompare
  by_cases h : k2 - k1 = 0
  · simp [h]
  · cases hm : (k2 - k1).msb <;> simp [hm]

section Back

variable {ins_addr ptr w : Value} {d : Bool}

/-- Where nothing happens below, nothing happens. -/
theorem insertBack_quiet {node : Value} {dir : Bool} {ret : InsertReturn}
    (hret : ret.gp_node.toNat < 2 ^ 31 ∧ ret.p_node.toNat < 2 ^ 31 ∧ ret.c_node.toNat < 2 ^ 31) :
    insertBack ins_addr ptr w (!d) d false ⟨false, false, node, dir⟩ ret =
      (w, ⟨false, false, ptr, d⟩, ret) := by
  unfold insertBack
  simp only [Bool.false_or, updateBalanceIns_false, Bool.false_and, select_false, selectBits,
    setBals_self, setLinks_self, and_mask hret.1, and_mask hret.2.1, and_mask hret.2.2, Bool.xor_false]

/-- Above an imbalanced node, the grandparent is noted. -/
theorem insertBack_above {node : Value} {dir : Bool} {ret : InsertReturn} (hptr : ptr.toNat < 2 ^ 31)
    (hret : ret.p_node.toNat < 2 ^ 31 ∧ ret.c_node.toNat < 2 ^ 31) :
    insertBack ins_addr ptr w (!d) d false ⟨false, true, node, dir⟩ ret =
      (w, ⟨false, false, ptr, d⟩, { ret with gp_node := ptr, dir_gpp := d }) := by
  unfold insertBack
  simp only [Bool.false_or, updateBalanceIns_false, Bool.false_and, select_false, select_true, selectBits,
    setBals_self, setLinks_self, and_mask hptr, and_mask hret.1, and_mask hret.2, Bool.xor_false]

/-- The links are kept but for the one to a new leaf. -/
theorem setLinks_eq {word : Value} {F_i : Bool} (hword : ∀ e, link e word = link e w)
    (hins : ins_addr.toNat < 2 ^ 31) :
    setAVLRightPtr (setAVLLeftPtr word (select (F_i && !d) (getAVLLeftPtr w) ins_addr))
        (select (F_i && d) (getAVLRightPtr w) ins_addr) =
      setLink d word (select F_i (link d w) ins_addr) := by
  have hl : getAVLLeftPtr w = getAVLLeftPtr word := (hword false).symm
  have hr : getAVLRightPtr w = getAVLRightPtr word := (hword true).symm
  rw [← hword d, hl, hr]
  cases d with
  | false =>
      rw [Bool.not_false, Bool.and_true, Bool.and_false, select_false]
      cases F_i with
      | false => exact setLinks_left (link_lt false word)
      | true => exact setLinks_left hins
  | true =>
      rw [Bool.not_true, Bool.and_true, Bool.and_false, select_false]
      exact setLinks_right _ _

/-- Above a subtree that has grown. -/
theorem insertBack_grown {res : InsertResult} {F_i : Bool} (hgrown : (res.bal_upd || F_i) = true)
    (hgp : res.F_gp = false) (hptr : ptr.toNat < 2 ^ 31) (hnode : res.node.toNat < 2 ^ 31)
    (hins : ins_addr.toNat < 2 ^ 31) (hbal : (bal d w && bal (!d) w) = false) :
    ∃ w', Fields d w' (select F_i (link d w) ins_addr) (link (!d) w)
        (!(bal d w || bal (!d) w)) false ∧
      insertBack ins_addr ptr w (!d) d F_i res .init =
        (w', ⟨!(bal d w || bal (!d) w), bal d w, ptr, d⟩,
          select (bal d w) .init ⟨0, ptr, res.node, false, d, res.dir, true⟩) := by
  have hbal' : (getLeftBal w && getRightBal w) = false := by
    cases d with
    | false => exact hbal
    | true => rwa [Bool.and_comm] at hbal
  have hnear : select d (getLeftBal w) (getRightBal w) = bal d w := rfl
  have hheavy : (!(getLeftBal w || getRightBal w)) = !(bal d w || bal (!d) w) := by
    cases d with
    | false => rfl
    | true => exact congrArg not (Bool.or_comm _ _)
  have hnext : (select F_i (link d w) ins_addr).toNat < 2 ^ 31 := by
    cases F_i with
    | false => exact link_lt d w
    | true => exact hins
  refine ⟨setLink d (setRightBal (setLeftBal w (select d (!(bal d w || bal (!d) w)) false))
    (select d false (!(bal d w || bal (!d) w)))) (select F_i (link d w) ins_addr), ⟨?_, ?_, ?_, ?_⟩, ?_⟩
  · rw [link_setLink hnext, if_pos rfl]
  · rw [link_setLink hnext, if_neg (by simp), link_setBals]
  · rw [bal_setLink hnext, bal_setBals]
    cases d <;> rfl
  · rw [bal_setLink hnext, bal_setBals]
    cases d <;> rfl
  · unfold insertBack
    simp only [hgrown, updateBalanceIns_true d hbal', hgp, hnear, hheavy, select_false]
    refine Prod.ext (setLinks_eq (fun e => link_setBals e _ _ w) hins) (Prod.ext rfl ?_)
    cases bal d w with
    | false => simp [selectBits, InsertReturn.init]
    | true => simp [selectBits, InsertReturn.init, and_mask hptr, and_mask hnode]

end Back

section Recursion

variable {A : Shape oramSize} {width bound : Nat} (hroom : Room A width bound)
include hroom

/-- One level of the recursion: what happens below, and the update of the node if it is still what it was. -/
theorem insertRec_succ {OPTIMIZED : Bool} {ins_addr insert_key : Value} {TTL : Nat} {ptr : Value}
    (hptr : ptr.toNat < bound) {isDummy F_i d : Bool} {mem mem' : Nodes} {ret ret' ret'' : InsertReturn}
    {res res' : InsertResult} {w w' : Value} (hw : mem.pointers ptr.toNat = w)
    (hd : (compareKeys (mem.key ptr.toNat) insert_key).2 = d)
    (hF : (!isDummy && decide (link d w = 0)) = F_i)
    (hrec : insertRec OPTIMIZED A width ins_addr insert_key TTL (link d w) (isDummy ^^ F_i) (mem, ret) =
      (res, mem', ret'))
    (hback : insertBack ins_addr ptr w (!d) d F_i res ret' = (w', res', ret''))
    (hold : mem'.pointers ptr.toNat = w) :
    insertRec OPTIMIZED A width ins_addr insert_key (TTL + 1) ptr isDummy (mem, ret) =
      (res', setPointers mem' ptr.toNat w', ret'') := by
  subst hw hd hF
  rw [insertRec]
  simp only [readNode_eq hroom OPTIMIZED mem hptr, Nodes.holds, selectBits_link, compareKeys_fst]
  rw [hrec]
  simp only [hback, updatePointers_eq hroom OPTIMIZED w' hptr hold]

/-- Past the leaves nothing happens. -/
theorem insertRec_nil (ins_addr insert_key : Value) {mem : Nodes} (hbound : 0 < bound)
    (hzero : mem.holds 0 = 0) (TTL : Nat) : ∃ dir, ∀ OPTIMIZED,
      insertRec OPTIMIZED A width ins_addr insert_key TTL 0 true (mem, .init) =
        (⟨false, false, 0, dir⟩, mem, .init) := by
  induction TTL with
  | zero => exact ⟨false, fun _ => rfl⟩
  | succ TTL ih =>
      obtain ⟨dir, hrec⟩ := ih
      have hw : mem.pointers (0 : Value).toNat = 0 := congrArg Node.pointers hzero
      have hquiet := @insertBack_quiet ins_addr 0 0 (compareKeys (mem.key (0 : Value).toNat) insert_key).2
        0 dir .init ⟨by decide, by decide, by decide⟩
      refine ⟨(compareKeys (mem.key (0 : Value).toNat) insert_key).2, fun OPTIMIZED => ?_⟩
      have hsucc := @insertRec_succ _ _ _ _ hroom OPTIMIZED ins_addr insert_key TTL 0 hbound true false _
        mem mem .init .init .init _ _ 0 0 hw rfl rfl (by rw [link_zero]; exact hrec OPTIMIZED) hquiet hw
      rwa [setPointers_self hw] at hsucc

end Recursion

/-- The direction that the insertion takes at a node. -/
def goRight (mem : Nodes) (insert_key : Value) (addr : Nat) : Bool :=
  (compareKeys (mem.key addr) insert_key).2

/-- The slot of the new node. -/
structure Fresh (bound : Nat) (mem : Nodes) (ins_addr : Value) (t : LinkedTree) : Prop where
  ne_zero : ins_addr.toNat ≠ 0
  lt : ins_addr.toNat < bound
  not_mem : ins_addr.toNat ∉ t.toList
  leaf : mem.pointers ins_addr.toNat = 0

/-- What the recursion on `t` leaves, where `t'` is the tree with the new leaf: an AVL tree, or its root to
be repaired, or a node further below to be repaired with its parent at hand. -/
inductive Outcome (mem : Nodes) (t t' : LinkedTree) (ptr : Value) (d : Bool) :
    InsertResult → InsertReturn → Prop where
  | settled {grown : Bool} (avl : t'.Avl (linkOf mem) (balOf mem))
      (height : t'.height = t.height + grown.toNat) : Outcome mem t t' ptr d ⟨grown, false, ptr, d⟩ .init
  | here {ret : InsertReturn} {y u z : LinkedTree} (leaning : Leaning mem ret y u z)
      (tree : t' = branch ret.dir_pc ret.p_node.toNat (branch ret.dir_cn ret.c_node.toNat y u) z)
      (height : t.height = z.height + 2) (p_node : ret.p_node = ptr) (gp_node : ret.gp_node = 0) :
      Outcome mem t t' ptr d ⟨false, true, ptr, d⟩ ret
  | below {ret : InsertReturn} {s : LinkedTree} (apart : Apart mem ret)
      (fits : ret.gp_node.toNat < 2 ^ 31 ∧ ret.p_node.toNat < 2 ^ 31 ∧ ret.c_node.toNat < 2 ^ 31)
      (inside : ret.gp_node.toNat ∈ t'.toList ∧ ret.p_node.toNat ∈ t'.toList ∧
        ret.c_node.toNat ∈ t'.toList ∧ (nNode mem ret).toNat ∈ t'.toList)
      (avl : s.Avl (linkOf (applyFix mem ret false)) (balOf (applyFix mem ret false)))
      (list : s.toList = t'.toList) (height : s.height = t.height) (root : s.root = t.root) :
      Outcome mem t t' ptr d ⟨false, false, ptr, d⟩ ret

section Step

variable {bound : Nat} {mem mem' : Nodes} {ptr ins_addr : Value} {d : Bool} {x y x' : LinkedTree}

/-- The new leaf below a node with room for it. -/
theorem outcome_leaf (hfits : bound ≤ 2 ^ 31)
    (h : AvlAt bound mem ptr (branch d ptr.toNat .nil y))
    (hnew : Fresh bound mem ins_addr (branch d ptr.toNat .nil y)) (dir : Bool) :
    ∃ w' res ret, insertBack ins_addr ptr (mem.pointers ptr.toNat) (!d) d true
        ⟨false, false, 0, dir⟩ .init = (w', res, ret) ∧
      Outcome (setPointers mem ptr.toNat w') (branch d ptr.toNat .nil y)
        (branch d ptr.toNat (.node ins_addr.toNat .nil .nil) y) ptr d res ret := by
  obtain ⟨ha, hnear, hfar, _, hyx, hbn, hbf, _, hy⟩ := LinkedTree.Avl.branch_iff.1 h.avl
  obtain ⟨_, hay, _, _, _⟩ := LinkedTree.nodup_branch.1 h.nodup
  have hbn : bal d (mem.pointers ptr.toNat) = false := hbn.trans (decide_eq_false (by simp))
  have hbf : bal (!d) (mem.pointers ptr.toNat) = decide (0 < y.height) := hbf
  have hptr : ptr.toNat < 2 ^ 31 :=
    lt_of_lt_of_le (h.inside ptr.toNat (LinkedTree.mem_branch.2 (.inl rfl))) hfits
  have hzero : (0 : Value).toNat < 2 ^ 31 := by decide
  obtain ⟨w', hw', hback⟩ := @insertBack_grown ins_addr ptr (mem.pointers ptr.toNat) d
    ⟨false, false, 0, dir⟩ true rfl rfl hptr hzero (lt_of_lt_of_le hnew.lt hfits)
    (by rw [hbn, Bool.false_and])
  rw [hbn, Bool.false_or] at hback
  rw [hbn, Bool.false_or] at hw'
  have hself : (setPointers mem ptr.toNat w').pointers ptr.toNat = w' := Function.update_self _ _ _
  have hne : ins_addr.toNat ≠ ptr.toNat := fun heq => hnew.not_mem (LinkedTree.mem_branch.2 (.inl heq))
  have hleaf : (LinkedTree.node ins_addr.toNat .nil .nil).Avl (linkOf (setPointers mem ptr.toNat w'))
      (balOf (setPointers mem ptr.toNat w')) :=
    avl_leaf hnew.ne_zero ((Function.update_of_ne hne _ _).trans hnew.leaf)
  refine ⟨w', _, _, hback, .settled ?_ ?_⟩
  · rw [← hself] at hw'
    refine avl_branch ha hw' rfl hfar ?_ ?_ ?_ ?_ hleaf (avl_setPointers hy hay w')
    · simp
    · simp only [LinkedTree.height_nil, LinkedTree.height_node] at hyx ⊢
      omega
    · rw [hbf, ← decide_not, decide_eq_decide]
      simp
    · simp only [LinkedTree.height_nil, LinkedTree.height_node] at hyx ⊢
      exact (decide_eq_false (by omega)).symm
  · simp only [hbf, LinkedTree.height_branch, LinkedTree.height_nil, LinkedTree.height_node] at hyx ⊢
    rcases Nat.eq_zero_or_pos y.height with hy0 | hypos
    · simp [hy0]
    · rw [decide_eq_true hypos]
      simp only [Bool.not_true, Bool.toNat_false]
      omega

variable {goRight : Nat → Bool} {new : Nat} {res : InsertResult} {ret : InsertReturn}

/-- What stays when the insertion went into the subtree `x`. -/
theorem insert_frame (h : AvlAt bound mem ptr (branch d ptr.toNat x y))
    (hnew : new ∉ (branch d ptr.toNat x y).toList) (honly : OnlyLinks mem mem' x.toList) :
    mem'.pointers ptr.toNat = mem.pointers ptr.toNat ∧ y.Avl (linkOf mem') (balOf mem') ∧
      (branch d ptr.toNat (x.insertAt goRight new) y).toList.Nodup := by
  obtain ⟨_, _, _, _, _, _, _, _, hy⟩ := LinkedTree.Avl.branch_iff.1 h.avl
  obtain ⟨hax, hay, hndx, hndy, hcross⟩ := LinkedTree.nodup_branch.1 h.nodup
  simp only [LinkedTree.mem_branch, not_or] at hnew
  refine ⟨honly.pointers _ hax, avl_congr hy fun z hz => ?_, LinkedTree.nodup_branch.2
    ⟨fun hin => ?_, hay, ?_, hndy, fun z hz => ?_⟩⟩
  · exact honly.pointers z fun hzx => hcross z hzx hz
  · rcases LinkedTree.mem_insertAt.1 hin with heq | hin
    · exact hnew.1 heq.symm
    · exact hax hin
  · exact (LinkedTree.perm_insertAt x).nodup_iff.2 (List.nodup_cons.2 ⟨hnew.2.1, hndx⟩)
  · rcases LinkedTree.mem_insertAt.1 hz with rfl | hz
    · exact hnew.2.2
    · exact hcross z hz

/-- Above a subtree that is an AVL tree again. -/
theorem outcome_settled (hfits : bound ≤ 2 ^ 31) (hins : ins_addr.toNat < 2 ^ 31)
    (h : AvlAt bound mem ptr (branch d ptr.toNat x y)) (hx : x ≠ .nil)
    (hnew : new ∉ (branch d ptr.toNat x y).toList) (honly : OnlyLinks mem mem' x.toList) {grown : Bool}
    (havl : (x.insertAt goRight new).Avl (linkOf mem') (balOf mem'))
    (hheight : (x.insertAt goRight new).height = x.height + grown.toNat) :
    ∃ w' res ret, insertBack ins_addr ptr (mem.pointers ptr.toNat) (!d) d false
        ⟨grown, false, link d (mem.pointers ptr.toNat), goRight x.root⟩ .init = (w', res, ret) ∧
      Outcome (setPointers mem' ptr.toNat w') (branch d ptr.toNat x y)
        (branch d ptr.toNat (x.insertAt goRight new) y) ptr d res ret := by
  obtain ⟨ha, hnear, hfar, hxy, hyx, hbn, hbf, _, _⟩ := LinkedTree.Avl.branch_iff.1 h.avl
  obtain ⟨hold, hy, hnodup⟩ := @insert_frame _ _ _ _ _ _ _ goRight _ h hnew honly
  obtain ⟨hax', hay, _, _, _⟩ := LinkedTree.nodup_branch.1 hnodup
  have hptr : ptr.toNat < 2 ^ 31 :=
    lt_of_lt_of_le (h.inside ptr.toNat (LinkedTree.mem_branch.2 (.inl rfl))) hfits
  have hbn : bal d (mem.pointers ptr.toNat) = decide (y.height < x.height) := hbn
  have hbf : bal (!d) (mem.pointers ptr.toNat) = decide (x.height < y.height) := hbf
  have hroot : (link d (mem.pointers ptr.toNat)).toNat = (x.insertAt goRight new).root :=
    hnear.trans (LinkedTree.root_insertAt hx).symm
  cases grown with
  | false =>
      rw [Bool.toNat_false, Nat.add_zero] at hheight
      refine ⟨_, _, _, insertBack_quiet ⟨by decide, by decide, by decide⟩, ?_⟩
      have hw : Fields d (mem'.pointers ptr.toNat) (link d (mem.pointers ptr.toNat))
          (link (!d) (mem.pointers ptr.toNat)) (decide (y.height < x.height))
          (decide (x.height < y.height)) := by
        rw [hold]
        exact ⟨rfl, rfl, hbn, hbf⟩
      rw [setPointers_self hold]
      refine .settled (avl_branch ha hw hroot hfar ?_ ?_ ?_ ?_ havl hy) ?_
      · omega
      · omega
      · rw [hheight]
      · rw [hheight]
      · simp only [LinkedTree.height_branch, hheight, Bool.toNat_false, Nat.add_zero]
  | true =>
      rw [Bool.toNat_true] at hheight
      have hboth : (bal d (mem.pointers ptr.toNat) && bal (!d) (mem.pointers ptr.toNat)) = false := by
        rw [hbn, hbf, ← Bool.decide_and]
        exact decide_eq_false (by omega)
      obtain ⟨w', hw', hback⟩ := @insertBack_grown ins_addr ptr (mem.pointers ptr.toNat) d
        ⟨true, false, link d (mem.pointers ptr.toNat), goRight x.root⟩ false rfl rfl hptr (link_lt _ _)
        hins hboth
      refine ⟨w', _, _, hback, ?_⟩
      have hself : (setPointers mem' ptr.toNat w').pointers ptr.toNat = w' := Function.update_self _ _ _
      have havl' := avl_setPointers havl hax' w'
      have hy' := avl_setPointers hy hay w'
      rw [select_false] at hw'
      rw [← hself] at hw'
      rcases Nat.lt_or_ge y.height x.height with hlt | hge
      · -- the subtree was already the higher one: there is an imbalance
        rw [decide_eq_true hlt] at hbn
        rw [hbn, Bool.true_or, Bool.not_true] at hw' ⊢
        rw [select_true]
        obtain ⟨v, u, hxv, hins', hv, hu⟩ := LinkedTree.grown_branch hx hheight
        have hbal := havl'
        rw [hins'] at hbal
        obtain ⟨_, _, _, hvu, _, _⟩ := LinkedTree.Avl.branch_iff.1 hbal
        have htop := hheight
        rw [hins', LinkedTree.height_branch] at htop
        have hnear' : (link d (mem.pointers ptr.toNat)).toNat = x.root := hnear
        have hleaning : Leaning (setPointers mem' ptr.toNat w')
            ⟨0, ptr, link d (mem.pointers ptr.toNat), false, d, goRight x.root, true⟩
            (v.insertAt goRight new) u y := by
          refine ⟨rfl, hptr, ha, hw'.near, ?_, fun e => ?_, ?_, hy', by omega, by omega,
            LinkedTree.grown_lopsided hv, ?_⟩
          · rw [hw'.far]
            exact hfar
          · rcases Bool.eq_or_eq_not e d with rfl | rfl
            · exact hw'.bal_near
            · exact hw'.bal_far
          · rwa [hnear']
          · rwa [hnear', ← hins']
        refine .here hleaning ?_ ?_ rfl rfl
        · rw [hnear', ← hins']
        · rw [LinkedTree.height_branch]
          omega
      · rw [decide_eq_false (by omega)] at hbn
        rw [hbn, Bool.false_or] at hw' ⊢
        rw [select_false]
        refine .settled (avl_branch ha hw' hroot hfar ?_ ?_ ?_ ?_ havl' hy') ?_
        · omega
        · omega
        · rw [hbf, ← decide_not, decide_eq_decide]
          omega
        · exact (decide_eq_false (by omega)).symm
        · simp only [LinkedTree.height_branch, hbf]
          by_cases hlt : x.height < y.height
          · rw [decide_eq_true hlt, Bool.not_true, Bool.toNat_false]
            omega
          · rw [decide_eq_false hlt, Bool.not_false, Bool.toNat_true]
            omega

/-- Above the node to be repaired: the parent is noted, and the repair will change its link. -/
theorem outcome_here (hfits : bound ≤ 2 ^ 31) (h : AvlAt bound mem ptr (branch d ptr.toNat x y))
    (hnew : new ∉ (branch d ptr.toNat x y).toList)
    (honly : OnlyLinks mem mem' x.toList) {v u z : LinkedTree} (hlean : Leaning mem' ret v u z)
    (htree : x.insertAt goRight new =
      branch ret.dir_pc ret.p_node.toNat (branch ret.dir_cn ret.c_node.toNat v u) z)
    (hheight : x.height = z.height + 2) (node : Value) (dir : Bool) :
    ∃ w' res ret', insertBack ins_addr ptr (mem.pointers ptr.toNat) (!d) d false ⟨false, true, node, dir⟩
        ret = (w', res, ret') ∧
      Outcome (setPointers mem' ptr.toNat w') (branch d ptr.toNat x y)
        (branch d ptr.toNat (x.insertAt goRight new) y) ptr d res ret' := by
  obtain ⟨ha, _, hfar, hxy, hyx, hbn, hbf, _, _⟩ := LinkedTree.Avl.branch_iff.1 h.avl
  obtain ⟨hold, hy, hnodup⟩ := @insert_frame _ _ _ _ _ _ _ goRight _ h hnew honly
  obtain ⟨hax', hay, _, _, hcross⟩ := LinkedTree.nodup_branch.1 hnodup
  have hptr : ptr.toNat < 2 ^ 31 :=
    lt_of_lt_of_le (h.inside ptr.toNat (LinkedTree.mem_branch.2 (.inl rfl))) hfits
  refine ⟨_, _, _, insertBack_above hptr ⟨hlean.p_fits, hlean.c_fits⟩, ?_⟩
  rw [setPointers_self hold]
  have hlean' : Leaning mem' { ret with gp_node := ptr, dir_gpp := d } v u z :=
    ⟨hlean.imbalance, hlean.p_fits, hlean.p_ne_zero, hlean.near, hlean.far, hlean.bits, hlean.avl_near,
      hlean.avl_far, hlean.height_y, hlean.height_u, hlean.lopsided, hlean.nodup⟩
  rw [htree] at hax' hcross
  obtain ⟨s, hs, hlist, hsheight, hsroot, hword⟩ := hlean'.fixed false hax'
  simp only [Bool.false_eq_true, if_false] at hword
  have hkeep := hlean'.onlyLinks_fixed false List.mem_cons_self fun a ha => List.mem_cons_of_mem ptr.toNat ha
  have hyfixed := avl_congr hy fun b hb => hkeep.pointers b fun hin => by
    rcases List.mem_cons.1 hin with heq | hin
    · exact hay (heq ▸ hb)
    · exact hcross b hin hb
  have htop := hlean'.top_fits
  have hsx : s.height = x.height := hsheight.trans hheight.symm
  have hw : Fields d ((applyFix mem' { ret with gp_node := ptr, dir_gpp := d } false).pointers ptr.toNat)
      (topNode mem' { ret with gp_node := ptr, dir_gpp := d }) (link (!d) (mem.pointers ptr.toNat))
      (decide (y.height < x.height)) (decide (x.height < y.height)) := by
    rw [hword, hold]
    exact ⟨by rw [link_setLink htop, if_pos rfl], by rw [link_setLink htop, if_neg (by simp)],
      (bal_setLink htop).trans hbn, (bal_setLink htop).trans hbf⟩
  have hnodes : ∀ b, b ∈ (branch ret.dir_pc ret.p_node.toNat
      (branch ret.dir_cn ret.c_node.toNat v u) z).toList →
      b ∈ (branch d ptr.toNat (x.insertAt goRight new) y).toList := by
    intro b hb
    rw [htree]
    exact LinkedTree.mem_branch.2 (.inr (.inl hb))
  refine .below (hlean'.apart hax') ⟨hptr, hlean.p_fits, hlean.c_fits⟩ ⟨?_, ?_, ?_, ?_⟩
    (avl_branch ha hw hsroot.symm hfar ?_ ?_ ?_ ?_ hs hyfixed) ?_ ?_ ?_
  · exact LinkedTree.mem_branch.2 (.inl rfl)
  · exact hnodes _ (hlean.mem_tree _ (.inl rfl))
  · exact hnodes _ (hlean.mem_tree _ (.inr (.inl rfl)))
  · exact hnodes _ (hlean'.mem_tree _ (.inr (.inr rfl)))
  · omega
  · omega
  · rw [hsx]
  · rw [hsx]
  · rw [htree]
    exact LinkedTree.toList_branch_congr hlist
  · simp only [LinkedTree.height_branch, hsx]
  · rw [LinkedTree.root_branch, LinkedTree.root_branch]

/-- Further above. -/
theorem outcome_below (h : AvlAt bound mem ptr (branch d ptr.toNat x y)) 
    (hnew : new ∉ (branch d ptr.toNat x y).toList) (honly : OnlyLinks mem mem' x.toList)
    (hapart : Apart mem' ret)
    (hfits : ret.gp_node.toNat < 2 ^ 31 ∧ ret.p_node.toNat < 2 ^ 31 ∧ ret.c_node.toNat < 2 ^ 31)
    (hinside : ret.gp_node.toNat ∈ (x.insertAt goRight new).toList ∧
      ret.p_node.toNat ∈ (x.insertAt goRight new).toList ∧
      ret.c_node.toNat ∈ (x.insertAt goRight new).toList ∧
      (nNode mem' ret).toNat ∈ (x.insertAt goRight new).toList) {s : LinkedTree}
    (hs : s.Avl (linkOf (applyFix mem' ret false)) (balOf (applyFix mem' ret false)))
    (hlist : s.toList = (x.insertAt goRight new).toList) (hheight : s.height = x.height)
    (hroot : s.root = x.root) (node : Value) (dir : Bool) :
    ∃ w' res ret', insertBack ins_addr ptr (mem.pointers ptr.toNat) (!d) d false ⟨false, false, node, dir⟩
        ret = (w', res, ret') ∧
      Outcome (setPointers mem' ptr.toNat w') (branch d ptr.toNat x y)
        (branch d ptr.toNat (x.insertAt goRight new) y) ptr d res ret' := by
  obtain ⟨ha, hnear, hfar, hxy, hyx, hbn, hbf, _, _⟩ := LinkedTree.Avl.branch_iff.1 h.avl
  obtain ⟨hold, hy, hnodup⟩ := @insert_frame _ _ _ _ _ _ _ goRight _ h hnew honly
  obtain ⟨hax', hay, _, _, hcross⟩ := LinkedTree.nodup_branch.1 hnodup
  have hkeep : ∀ b, b ∉ (x.insertAt goRight new).toList →
      (applyFix mem' ret false).pointers b = mem'.pointers b := fun b hb =>
    applyFix_other false (fun heq => hb (heq ▸ hinside.1)) (fun heq => hb (heq ▸ hinside.2.1))
      (fun heq => hb (heq ▸ hinside.2.2.1)) (fun heq => hb (heq ▸ hinside.2.2.2))
  have hyfixed := avl_congr hy fun b hb => hkeep b fun hin => hcross b hin hb
  have hw : Fields d ((applyFix mem' ret false).pointers ptr.toNat) (link d (mem.pointers ptr.toNat))
      (link (!d) (mem.pointers ptr.toNat)) (decide (y.height < x.height))
      (decide (x.height < y.height)) := by
    rw [hkeep _ hax', hold]
    exact ⟨rfl, rfl, hbn, hbf⟩
  have hnodes : ∀ b, b ∈ (x.insertAt goRight new).toList →
      b ∈ (branch d ptr.toNat (x.insertAt goRight new) y).toList :=
    fun b hb => LinkedTree.mem_branch.2 (.inr (.inl hb))
  refine ⟨_, _, _, insertBack_quiet hfits, ?_⟩
  rw [setPointers_self hold]
  refine .below hapart hfits ⟨hnodes _ hinside.1, hnodes _ hinside.2.1, hnodes _ hinside.2.2.1,
    hnodes _ hinside.2.2.2⟩ (avl_branch ha hw (hnear.trans hroot.symm) hfar ?_ ?_ ?_ ?_ hs hyfixed) ?_ ?_ ?_
  · omega
  · omega
  · rw [hheight]
  · rw [hheight]
  · exact LinkedTree.toList_branch_congr hlist
  · simp only [LinkedTree.height_branch, hheight]
  · rw [LinkedTree.root_branch, LinkedTree.root_branch]

end Step

section Recursion

variable {A : Shape oramSize} {width bound : Nat} (hroom : Room A width bound) (hfits : bound ≤ 2 ^ 31)
include hroom hfits

/-- The recursion inserts the leaf in both modes, and leaves at most one node to be repaired. -/
theorem insertRec_spec {ins_addr insert_key : Value} {mem : Nodes} (hzero : mem.holds 0 = 0) {TTL : Nat} :
    ∀ {t : LinkedTree} {ptr : Value}, AvlAt bound mem ptr t → t ≠ .nil → t.height ≤ TTL →
      Fresh bound mem ins_addr t → ∃ res mem' ret,
        (∀ OPTIMIZED, insertRec OPTIMIZED A width ins_addr insert_key TTL ptr false (mem, .init) =
          (res, mem', ret)) ∧
        OnlyLinks mem mem' t.toList ∧
        Outcome mem' t (t.insertAt (goRight mem insert_key) ins_addr.toNat) ptr
          (goRight mem insert_key t.root) res ret := by
  induction TTL with
  | zero =>
      intro t ptr _ hne hTTL _
      exact absurd (LinkedTree.height_eq_zero.1 (Nat.le_zero.1 hTTL)) hne
  | succ TTL ih =>
      intro t ptr h hne hTTL hnew
      obtain ⟨x, y, ht⟩ := LinkedTree.exists_branch hne (goRight mem insert_key t.root)
      rw [← h.root] at ht ⊢
      have hd : (compareKeys (mem.key ptr.toNat) insert_key).2 = goRight mem insert_key ptr.toNat := rfl
      generalize goRight mem insert_key ptr.toNat = d at ht hd ⊢
      subst ht
      have hptr : ptr.toNat < bound := h.inside _ (LinkedTree.mem_branch.2 (.inl rfl))
      have hins_fits : ins_addr.toNat < 2 ^ 31 := lt_of_lt_of_le hnew.lt hfits
      rw [LinkedTree.insertAt_branch ins_addr.toNat hd]
      by_cases hx : x = .nil
      · subst hx
        have hlink : link d (mem.pointers ptr.toNat) = 0 := BitVec.eq_of_toNat_eq h.near.root
        obtain ⟨dir, hrec⟩ := @insertRec_nil _ _ _ _ hroom ins_addr insert_key mem
          (Nat.zero_lt_of_lt hptr) hzero TTL
        obtain ⟨w', res, ret, hback, hout⟩ := outcome_leaf hfits h hnew dir
        refine ⟨res, setPointers mem ptr.toNat w', ret, fun OPTIMIZED => ?_, ?_, hout⟩
        · refine insertRec_succ hroom hptr rfl hd (by rw [hlink]; rfl) ?_ hback rfl
          rw [hlink]
          exact hrec OPTIMIZED
        · exact (OnlyLinks.refl mem _).setPointers (LinkedTree.mem_branch.2 (.inl rfl)) w'
      · have hheight : x.height ≤ TTL := by
          rw [LinkedTree.height_branch] at hTTL
          omega
        have hnewx : Fresh bound mem ins_addr x :=
          ⟨hnew.ne_zero, hnew.lt, fun hin => hnew.not_mem (LinkedTree.mem_branch.2 (.inr (.inl hin))),
            hnew.leaf⟩
        obtain ⟨res, mem', ret, hrec, honly, hout⟩ := ih h.near hx hheight hnewx
        have hlink : link d (mem.pointers ptr.toNat) ≠ 0 := fun h0 =>
          hx ((link_eq_zero h.near.root h.near.avl).1 h0)
        have hstep : ∃ w' res' ret', insertBack ins_addr ptr (mem.pointers ptr.toNat) (!d) d false res ret =
            (w', res', ret') ∧ Outcome (setPointers mem' ptr.toNat w') (branch d ptr.toNat x y)
              (branch d ptr.toNat (x.insertAt (goRight mem insert_key) ins_addr.toNat) y) ptr d res' ret' := by
          cases hout with
          | settled havl hgrown => exact outcome_settled hfits hins_fits h hx hnew.not_mem honly havl hgrown
          | here hlean htree hh _ _ =>
              exact outcome_here hfits h hnew.not_mem honly hlean htree hh _ _
          | below hapart hret hinside hs hlist hh hroot =>
              exact outcome_below h hnew.not_mem honly hapart hret hinside hs hlist hh hroot _ _
        obtain ⟨w', res', ret', hback, hout'⟩ := hstep
        have hax := (LinkedTree.nodup_branch.1 h.nodup).1
        refine ⟨res', setPointers mem' ptr.toNat w', ret', fun OPTIMIZED => ?_, ?_, hout'⟩
        · have hF : (!false && decide (link d (mem.pointers ptr.toNat) = 0)) = false := by
            rw [decide_eq_false hlink, Bool.and_false]
          exact @insertRec_succ _ _ _ _ hroom OPTIMIZED _ _ _ _ hptr false false d mem mem' _ _ _ _ _ _ _
            rfl hd hF (hrec OPTIMIZED) hback (honly.pointers _ hax)
        · exact (honly.mono fun b hb => LinkedTree.mem_branch.2 (.inr (.inl hb))).setPointers
            (LinkedTree.mem_branch.2 (.inl rfl)) w'

end Recursion

/-! ## The whole insertion -/

theorem setPointers_comm {mem : Nodes} {a b : Nat} (h : a ≠ b) (v w : Value) :
    setPointers (setPointers mem a v) b w = setPointers (setPointers mem b w) a v := by
  unfold setPointers
  rw [Function.update_comm h]

theorem applyFix_quiet {mem : Nodes} (hzero : mem.pointers 0 = 0) (F_gp : Bool) :
    nNode mem .init = 0 ∧ fourPointers mem .init = ⟨0, 0, 0, 0⟩ ∧
      fixInsert .init F_gp (nNode mem .init) ⟨0, 0, 0, 0⟩ = ⟨0, 0, 0, 0⟩ ∧
      applyFix mem .init F_gp = mem := by
  have hnode : nNode mem .init = 0 := by
    change link false (mem.pointers 0) = 0
    rw [hzero]
    exact link_zero false
  have hold : fourPointers mem .init = ⟨0, 0, 0, 0⟩ := by
    unfold fourPointers
    rw [hnode]
    change FourPointers.mk (mem.pointers 0) (mem.pointers 0) (mem.pointers 0) (mem.pointers 0) = _
    rw [hzero]
  refine ⟨hnode, hold, ?_, ?_⟩
  · rw [hnode]
    exact fixInsert_quiet F_gp
  · unfold applyFix
    rw [hold, hnode, fixInsert_quiet]
    have hself : setPointers mem 0 0 = mem := setPointers_self hzero
    change setPointers (setPointers (setPointers (setPointers mem 0 0) 0 0) 0 0) 0 0 = mem
    rw [hself, hself, hself, hself]

section WriteBack

variable {A : Shape oramSize} {width bound : Nat} (hroom : Room A width bound)
include hroom

/-- In both modes the four nodes get their new links: either they are different ones, or nothing
changes. -/
theorem writeBack_eq {mem : Nodes} {ret : InsertReturn} (F_gp : Bool)
    (hin : ret.gp_node.toNat < bound ∧ ret.p_node.toNat < bound ∧ ret.c_node.toNat < bound ∧
      (nNode mem ret).toNat < bound)
    (h : Apart mem ret ∨ ret = .init ∧ mem.pointers 0 = 0) (OPTIMIZED : Bool) :
    let old := fourPointers mem ret
    let new := fixInsert ret F_gp (nNode mem ret) old
    (if OPTIMIZED then
      let mem := mem.addPointers A ⟨nNode mem ret, width⟩ (new.n ^^^ old.n)
      let mem := mem.addPointers A ⟨ret.c_node, width⟩ (new.child ^^^ old.child)
      let mem := mem.addPointers A ⟨ret.p_node, width⟩ (new.parent ^^^ old.parent)
      mem.addPointers A ⟨ret.gp_node, width⟩ (new.gp ^^^ old.gp)
    else
      let mem' := mem.writePointers A (A.index ret.c_node) new.child
      let mem' := mem'.writePointers A (A.index ret.p_node) new.parent
      let mem' := mem'.writePointers A (A.index ret.gp_node) new.gp
      mem'.writePointers A (A.index (nNode mem ret)) new.n) = applyFix mem ret F_gp := by
  obtain ⟨hgp, hp, hc, hn⟩ := hin
  intro old new
  cases OPTIMIZED with
  | false =>
      simp only [Bool.false_eq_true, if_false, writePointers_eq hroom _ _ hc, writePointers_eq hroom _ _ hp,
        writePointers_eq hroom _ _ hgp, writePointers_eq hroom _ _ hn]
      rfl
  | true =>
      simp only [if_true]
      rcases h with hapart | ⟨rfl, hzero⟩
      · have hstep1 : ∀ v, (setPointers mem (nNode mem ret).toNat v).pointers ret.c_node.toNat = old.child :=
          fun v => Function.update_of_ne hapart.c_n _ _
        have hstep2 : ∀ v w, (setPointers (setPointers mem (nNode mem ret).toNat v) ret.c_node.toNat
            w).pointers ret.p_node.toNat = old.parent := fun v w =>
          (Function.update_of_ne hapart.p_c _ _).trans (Function.update_of_ne hapart.p_n _ _)
        have hstep3 : ∀ v w u, (setPointers (setPointers (setPointers mem (nNode mem ret).toNat v)
            ret.c_node.toNat w) ret.p_node.toNat u).pointers ret.gp_node.toNat = old.gp := fun v w u =>
          (Function.update_of_ne hapart.gp_p _ _).trans
            ((Function.update_of_ne hapart.gp_c _ _).trans (Function.update_of_ne hapart.gp_n _ _))
        rw [addPointers_eq hroom new.n hn (show mem.pointers _ = old.n from rfl),
          addPointers_eq hroom new.child hc (hstep1 _), addPointers_eq hroom new.parent hp (hstep2 _ _),
          addPointers_eq hroom new.gp hgp (hstep3 _ _ _),
          setPointers_comm hapart.c_n.symm, setPointers_comm hapart.p_n.symm,
          setPointers_comm hapart.gp_n.symm]
        rfl
      · obtain ⟨hnode, hold, hsame⟩ := applyFix_quiet hzero F_gp
        have hnew : new = ⟨0, 0, 0, 0⟩ := (congrArg (fixInsert .init F_gp _) hold).trans hsame.1
        have hadd : mem.addPointers A ⟨0, width⟩ ((0 : Value) ^^^ 0) = mem :=
          (addPointers_eq hroom 0 hgp hzero).trans (setPointers_self hzero)
        rw [hsame.2, hnew, hnode, show old = ⟨0, 0, 0, 0⟩ from hold]
        simp only [InsertReturn.init, hadd]

end WriteBack

/-- What the repair after the recursion gives: an AVL tree with the nodes of `t'` in order. -/
structure Repaired (bound : Nat) (mem : Nodes) (t' : LinkedTree) (root : Value) (res : InsertResult)
    (ret : InsertReturn) : Prop where
  write : ret.gp_node.toNat < bound ∧ ret.p_node.toNat < bound ∧ ret.c_node.toNat < bound ∧
    (nNode mem ret).toNat < bound
  apart : Apart mem ret ∨ ret = .init ∧ mem.pointers 0 = 0
  only : OnlyLinks mem (applyFix mem ret res.F_gp) t'.toList
  tree : ∃ t : LinkedTree,
    (selectBits 31 (res.F_gp && (ret.dir_pc ^^ ret.dir_cn))
      (selectBits 31 (res.F_gp && ret.imbalance) root ret.c_node) (nNode mem ret)).toNat = t.root ∧
    t.Avl (linkOf (applyFix mem ret res.F_gp)) (balOf (applyFix mem ret res.F_gp)) ∧
    t.toList = t'.toList

theorem Outcome.repaired {bound : Nat} {mem : Nodes} {t t' : LinkedTree} {root : Value} {d : Bool}
    {res : InsertResult} {ret : InsertReturn} (h : Outcome mem t t' root d res ret)
    (hfits : bound ≤ 2 ^ 31) (hroot : root.toNat = t.root) (hroot' : t'.root = t.root)
    (hbound : root.toNat < bound) (hzero : mem.pointers 0 = 0) (hne : ∀ a ∈ t'.toList, a ≠ 0)
    (hinside : ∀ a ∈ t'.toList, a < bound) : Repaired bound mem t' root res ret := by
  have hmask : root &&& maskBits 31 = root := and_mask (lt_of_lt_of_le hbound hfits)
  have hkept : ∀ x y z : Value, selectBits 31 (false && (ret.dir_pc ^^ ret.dir_cn))
      (selectBits 31 (false && ret.imbalance) root x) y = root := by
    intro x y z
    simp only [Bool.false_and, selectBits, select_false, hmask]
  cases h with
  | settled havl _ =>
      obtain ⟨hnode, _, _, hsame⟩ := applyFix_quiet hzero false
      have h0 : (0 : Value).toNat < bound := Nat.zero_lt_of_lt hbound
      refine ⟨⟨h0, h0, h0, by rwa [hnode]⟩, .inr ⟨rfl, hzero⟩, ?_, t', ?_, ?_, rfl⟩
      · rw [hsame]
        exact .refl _ _
      · rw [hkept _ _ 0]
        exact hroot.trans hroot'.symm
      · rwa [hsame]
  | here hlean htree hheight hp hgp =>
      have h0 : (0 : Value).toNat < bound := Nat.zero_lt_of_lt hbound
      subst htree
      have hgp0 : ret.gp_node.toNat = 0 := congrArg BitVec.toNat hgp
      have hnot : ret.gp_node.toNat ∉ (branch ret.dir_pc ret.p_node.toNat
          (branch ret.dir_cn ret.c_node.toNat _ _) _).toList := fun hin => hne _ hin hgp0
      obtain ⟨t'', havl, hlist, _, htop, hword⟩ := hlean.fixed true hnot
      simp only [if_true] at hword
      have hin := fun a ha => hinside a (hlean.mem_tree a ha)
      refine ⟨⟨by rwa [hgp], hin _ (.inl rfl), hin _ (.inr (.inl rfl)), hin _ (.inr (.inr rfl))⟩,
        .inl (hlean.apart hnot), ?_, t'', ?_, havl, hlist⟩
      · have hkeep := hlean.onlyLinks_fixed true List.mem_cons_self
          fun a ha => List.mem_cons_of_mem ret.gp_node.toNat ha
        refine ⟨hkeep.key, hkeep.value, fun a ha => ?_⟩
        by_cases hagp : a = ret.gp_node.toNat
        · rw [hagp]
          exact hword
        · exact hkeep.pointers a fun hin => (List.mem_cons.1 hin).elim hagp ha
      · rw [htop, hlean.imbalance]
        refine congrArg BitVec.toNat ?_
        simp only [Bool.true_and, selectBits, select_true, and_mask hlean.c_fits]
        exact selectBits_eq hlean.c_fits (link_lt _ _)
  | below hapart hret hin havl hlist _ hs =>
      refine ⟨⟨hinside _ hin.1, hinside _ hin.2.1, hinside _ hin.2.2.1, hinside _ hin.2.2.2⟩,
        .inl hapart, ?_, _, ?_, havl, hlist⟩
      · exact ((((OnlyLinks.refl mem _).setPointers hin.2.2.1 _).setPointers hin.2.1 _).setPointers
          hin.1 _).setPointers hin.2.2.2 _
      · rw [hkept _ _ 0]
        exact hroot.trans hs.symm

/-- The insertion of a leaf that is already written, in both modes. -/
theorem insertBelow_spec {b : AVL oramSize} {t : LinkedTree} {TTL : Nat} {ins_addr insert_key : Value}
    (h : AvlAt (b.curMaxIndex + 1) b.oram b.root t) (hne : t ≠ .nil) (hTTL : t.height ≤ TTL)
    (hzero : b.oram.holds 0 = 0) (hnew : Fresh (b.curMaxIndex + 1) b.oram ins_addr t)
    (hroom : b.curMaxIndex < oramSize) (hfits : b.curMaxIndex < 2 ^ 31) : ∃ mem root t',
      (∀ OPTIMIZED, insertBelow OPTIMIZED b TTL ins_addr insert_key = { b with oram := mem, root := root }) ∧
      AvlAt (b.curMaxIndex + 1) mem root t' ∧
      t'.toList = (t.insertAt (goRight b.oram insert_key) ins_addr.toNat).toList ∧
      OnlyLinks b.oram mem t'.toList := by
  have hflat := flat_room hroom
  obtain ⟨res, mem, ret, hrec, honly, hout⟩ := @insertRec_spec _ _ _ _ hflat hfits ins_addr insert_key
    b.oram hzero TTL t b.root h hne hTTL hnew
  have hroot_mem : t.root ∈ t.toList := LinkedTree.root_mem hne
  have hmem0 : mem.pointers 0 = 0 := by
    rw [honly.pointers 0 fun hin => h.avl.stored.ne_zero 0 hin rfl]
    exact congrArg Node.pointers hzero
  have hrepaired := hout.repaired hfits h.root (LinkedTree.root_insertAt hne)
    (by rw [h.root]; exact h.inside _ hroot_mem) hmem0
    (fun a ha => by
      rcases LinkedTree.mem_insertAt.1 ha with rfl | ha
      · exact hnew.ne_zero
      · exact h.avl.stored.ne_zero a ha)
    (fun a ha => by
      rcases LinkedTree.mem_insertAt.1 ha with rfl | ha
      · exact hnew.lt
      · exact h.inside a ha)
  obtain ⟨hwrite, hapart, honly', t', hroot, havl, hlist⟩ := hrepaired
  refine ⟨applyFix mem ret res.F_gp, _, t', fun OPTIMIZED => ?_, ⟨hroot, havl, ?_, ?_⟩, hlist, ?_⟩
  · unfold insertBelow
    dsimp only
    rw [hrec OPTIMIZED]
    have hnode : link ret.dir_cn (mem.pointers ret.c_node.toNat) = nNode mem ret := rfl
    simp only [readNode_eq hflat OPTIMIZED mem hwrite.1, readNode_eq hflat OPTIMIZED mem hwrite.2.1,
      readNode_eq hflat OPTIMIZED mem hwrite.2.2.1, Nodes.holds, selectBits_link, hnode,
      readNode_eq hflat OPTIMIZED mem hwrite.2.2.2]
    exact congrArg (fun oram => AVL.mk oram _ _ _ _) (writeBack_eq hflat res.F_gp hwrite hapart OPTIMIZED)
  · intro a ha
    rw [hlist] at ha
    rcases LinkedTree.mem_insertAt.1 ha with rfl | ha
    · exact hnew.lt
    · exact h.inside a ha
  · rw [hlist]
    exact (LinkedTree.perm_insertAt t).nodup_iff.2 (List.nodup_cons.2 ⟨hnew.not_mem, h.nodup⟩)
  · rw [hlist]
    exact (honly.mono fun a ha => LinkedTree.mem_insertAt.2 (.inr ha)).trans honly'

end AVL

end Prac
