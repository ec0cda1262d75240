import Prac.AvlTree
import Prac.Lib.Rebalance

/-!
# The rotations of an AVL deletion

* `AVL.fixBalance_single`, `AVL.fixBalance_double` — the words after the rotations of `fixImbalance`.
* `AVL.fixImbalance_quiet`, `AVL.fixImbalance_true` — the memory after it, in both modes.
* `AVL.Lowered.fixed` — the rotations rebalance the node, and its bits are right unless they cross.
-/

namespace Prac

namespace AVL

open LinkedTree (branch)

variable {oramSize : Nat}

/-! ## The words after the rotations -/

theorem fixBalance_quiet (ptr cs_ptr gcs_ptr : Value) (bal_l bal_r bal_upd d : Bool) (w : ThreePointers) :
    fixBalance ptr cs_ptr gcs_ptr bal_l bal_r bal_upd d false w =
      (⟨setRightBal (setLeftBal w.node bal_l) bal_r, w.cs, w.gcs⟩, cs_ptr, bal_upd) := by
  simp only [fixBalance, Bool.false_and, rotate_false, select_false, setBals_self]

section Words

variable {ptr cs_ptr gcs_ptr : Value} {d : Bool} {w : ThreePointers} (hptr : ptr.toNat < 2 ^ 31)
  (hcs : cs_ptr.toNat < 2 ^ 31)
include hptr hcs

/-- The sibling does not lean towards the child: one rotation. -/
theorem fixBalance_single {heavy : Bool} (hbal : bal d w.cs = false) (hfar : bal (!d) w.cs = heavy) :
    ∃ new, fixBalance ptr cs_ptr gcs_ptr false false true d true w = (new, cs_ptr, heavy) ∧
      Fields d new.node (link d w.node) (link d w.cs) false (!heavy) ∧
      Fields d new.cs ptr (link (!d) w.cs) (!heavy) false ∧ new.gcs = w.gcs := by
  have hl : ∀ d w, (link d w).toNat < 2 ^ 31 := link_lt
  have hself : setRightBal (setLeftBal w.gcs (bal false w.gcs)) (bal true w.gcs) = w.gcs :=
    setBals_self w.gcs
  have hnew : fixBalance ptr cs_ptr gcs_ptr false false true d true w =
      (⟨setRightBal (setLeftBal (setLink (!d) w.node (link d w.cs)) (select d false (!heavy)))
          (select d (!heavy) false),
        setRightBal (setLeftBal (setLink d w.cs ptr) (select d (!heavy) false)) (select d false (!heavy)),
        w.gcs⟩, cs_ptr, heavy) := by
    cases d <;> cases heavy <;> simp only [Bool.not_true, Bool.not_false] at hfar <;>
      simp [fixBalance, rotate_false, rotate_true hptr hcs, selectBits, and_mask hcs, getLeftBal_eq_bal,
        getRightBal_eq_bal, hbal, hfar, hself]
  refine ⟨_, hnew, ⟨?_, ?_, ?_, ?_⟩, ⟨?_, ?_, ?_, ?_⟩, rfl⟩
  · simp [link_setLink (hl _ _)]
  · simp [link_setLink (hl _ _)]
  · cases d <;> simp
  · cases d <;> simp
  · simp [link_setLink hptr]
  · simp [link_setLink hptr]
  · cases d <;> simp
  · cases d <;> simp

/-- The sibling leans towards the child: its own child is rotated up twice. -/
theorem fixBalance_double {near far : Bool} (hgcs : gcs_ptr.toNat < 2 ^ 31) (hbal : bal d w.cs = true)
    (hother : bal (!d) w.cs = false) (hnear : bal d w.gcs = near) (hfar : bal (!d) w.gcs = far) :
    ∃ new, fixBalance ptr cs_ptr gcs_ptr false false true d true w = (new, gcs_ptr, true) ∧
      Fields d new.node (link d w.node) (link d w.gcs) false false ∧
      Fields d new.cs (link (!d) w.gcs) (link (!d) w.cs) false near ∧
      Fields d new.gcs ptr cs_ptr false far := by
  have hl : ∀ d w, (link d w).toNat < 2 ^ 31 := link_lt
  have hlink : link d (setLink (!d) w.gcs cs_ptr) = link d w.gcs := by
    rw [link_setLink hcs, if_neg (by simp)]
  have hnew : fixBalance ptr cs_ptr gcs_ptr false false true d true w =
      (⟨setRightBal (setLeftBal (setLink (!d) (setLink (!d) w.node gcs_ptr) (link d w.gcs)) false) false,
        setRightBal (setLeftBal (setLink d w.cs (link (!d) w.gcs)) (select d false near))
          (select d near false),
        setRightBal (setLeftBal (setLink d (setLink (!d) w.gcs cs_ptr) ptr) (select d false far))
          (select d far false)⟩, gcs_ptr, true) := by
    cases d <;> cases near <;> simp only [Bool.not_true, Bool.not_false] at hother hfar hlink <;>
      simp [fixBalance, rotate_true hcs hgcs, rotate_true hptr hgcs, selectBits, and_mask hgcs,
        getLeftBal_eq_bal, getRightBal_eq_bal, hbal, hother, hnear, hfar, hlink]
  refine ⟨_, hnew, ⟨?_, ?_, ?_, ?_⟩, ⟨?_, ?_, ?_, ?_⟩, ⟨?_, ?_, ?_, ?_⟩⟩
  · simp [link_setLink (hl _ _), link_setLink hgcs]
  · simp [link_setLink (hl _ _)]
  · cases d <;> simp
  · cases d <;> simp
  · simp [link_setLink (hl _ _)]
  · simp [link_setLink (hl _ _)]
  · cases d <;> simp
  · cases d <;> simp
  · simp [link_setLink hptr]
  · simp [link_setLink hptr, link_setLink hcs]
  · cases d <;> simp
  · cases d <;> simp

end Words

/-! ## The memory after the rotations -/

/-- The memory with the three nodes fixed. -/
def writeThree (mem : Nodes) (ptr cs_ptr gcs_ptr : Nat) (new : ThreePointers) : Nodes :=
  setPointers (setPointers (setPointers mem cs_ptr new.cs) gcs_ptr new.gcs) ptr new.node

section Three

variable {mem : Nodes} {ptr cs_ptr gcs_ptr : Nat} {new : ThreePointers}

theorem writeThree_node : (writeThree mem ptr cs_ptr gcs_ptr new).pointers ptr = new.node :=
  Function.update_self _ _ _

theorem writeThree_cs (hpc : ptr ≠ cs_ptr) (hcg : cs_ptr ≠ gcs_ptr) :
    (writeThree mem ptr cs_ptr gcs_ptr new).pointers cs_ptr = new.cs := by
  simp only [writeThree, setPointers_pointers]
  rw [Function.update_of_ne hpc.symm, Function.update_of_ne hcg, Function.update_self]

theorem writeThree_gcs (hpg : ptr ≠ gcs_ptr) :
    (writeThree mem ptr cs_ptr gcs_ptr new).pointers gcs_ptr = new.gcs := by
  simp only [writeThree, setPointers_pointers]
  rw [Function.update_of_ne hpg.symm, Function.update_self]

theorem writeThree_other {a : Nat} (hp : a ≠ ptr) (hc : a ≠ cs_ptr) (hg : a ≠ gcs_ptr) :
    (writeThree mem ptr cs_ptr gcs_ptr new).pointers a = mem.pointers a := by
  simp only [writeThree, setPointers_pointers]
  rw [Function.update_of_ne hp, Function.update_of_ne hg, Function.update_of_ne hc]

theorem onlyLinks_writeThree {s : List Nat} (hp : ptr ∈ s) (hc : cs_ptr ∈ s) (hg : gcs_ptr ∈ s) :
    OnlyLinks mem (writeThree mem ptr cs_ptr gcs_ptr new) s :=
  (((OnlyLinks.refl mem s).setPointers hc _).setPointers hg _).setPointers hp _

end Three

section Fix

variable {A : Shape oramSize} {width bound : Nat} (hroom : Room A width bound) {mem : Nodes}
  {ptr cs_ptr oldptrs nodeptrs : Value} {bal_l bal_r bal_upd d : Bool} {ret : DelReturn}
  (hptr : ptr.toNat < bound) (hcs : cs_ptr.toNat < bound) (hold : mem.pointers ptr.toNat = oldptrs)
include hroom hptr hcs hold

/-- Without an imbalance only the node itself is written. -/
theorem fixImbalance_quiet (hgcs : (gcsPtr d false (mem.pointers cs_ptr.toNat)).toNat < bound)
    (OPTIMIZED : Bool) : fixImbalance OPTIMIZED A width mem ⟨ptr, width⟩ oldptrs ptr nodeptrs bal_l bal_r
        bal_upd d cs_ptr false ret =
      (setPointers mem ptr.toNat (setRightBal (setLeftBal nodeptrs bal_l) bal_r), bal_upd, false, ret) := by
  unfold fixImbalance
  simp only [readNode_eq hroom OPTIMIZED mem hcs, Nodes.holds, readNode_eq hroom OPTIMIZED mem hgcs,
    fixBalance_quiet, updatePointers_eq hroom OPTIMIZED _ hcs rfl, setPointers_self rfl,
    updatePointers_eq hroom OPTIMIZED _ hgcs rfl, updatePointers_eq hroom OPTIMIZED _ hptr hold, select_false]

/-- With an imbalance the three nodes get their new links, if they are different ones. -/
theorem fixImbalance_true {gcs_ptr new_ptr : Value} {new : ThreePointers} {bal_upd' : Bool}
    (hgcs_eq : gcsPtr d true (mem.pointers cs_ptr.toNat) = gcs_ptr)
    (hgcs : gcs_ptr.toNat < bound) (hpc : ptr.toNat ≠ cs_ptr.toNat) (hpg : ptr.toNat ≠ gcs_ptr.toNat)
    (hcg : cs_ptr.toNat ≠ gcs_ptr.toNat)
    (hfix : fixBalance ptr cs_ptr gcs_ptr bal_l bal_r bal_upd d true
      ⟨nodeptrs, mem.pointers cs_ptr.toNat, mem.pointers gcs_ptr.toNat⟩ = (new, new_ptr, bal_upd'))
    (OPTIMIZED : Bool) :
    fixImbalance OPTIMIZED A width mem ⟨ptr, width⟩ oldptrs ptr nodeptrs bal_l bal_r bal_upd d cs_ptr true
        ret =
      (writeThree mem ptr.toNat cs_ptr.toNat gcs_ptr.toNat new, bal_upd', true,
        { ret with ret_ptr := new_ptr }) := by
  have hstep1 : ∀ w, (setPointers mem cs_ptr.toNat w).pointers gcs_ptr.toNat =
      mem.pointers gcs_ptr.toNat := fun w => Function.update_of_ne hcg.symm _ _
  have hstep2 : ∀ w v, (setPointers (setPointers mem cs_ptr.toNat w) gcs_ptr.toNat v).pointers ptr.toNat =
      oldptrs := fun w v =>
    ((Function.update_of_ne hpg _ _).trans (Function.update_of_ne hpc _ _)).trans hold
  unfold fixImbalance
  simp only [readNode_eq hroom OPTIMIZED mem hcs, Nodes.holds, hgcs_eq,
    readNode_eq hroom OPTIMIZED mem hgcs, hfix, updatePointers_eq hroom OPTIMIZED _ hcs rfl,
    updatePointers_eq hroom OPTIMIZED _ hgcs (hstep1 _), updatePointers_eq hroom OPTIMIZED _ hptr (hstep2 _ _),
    select_true, writeThree]

end Fix

/-! ## The tree after the rotations -/

theorem gcsPtr_false (d : Bool) (w : Value) : ∃ e, gcsPtr d false w = link e w := by
  have hmask : ∀ e, link e w &&& maskBits 31 = link e w := fun e => and_mask (link_lt e w)
  refine ⟨!getLeftBal w, ?_⟩
  cases h : getLeftBal w <;>
    simp [gcsPtr, selectBits, h, getAVLLeftPtr_eq_link, getAVLRightPtr_eq_link, hmask]

/-- The inner child of the sibling if it leans there, and the outer one otherwise. -/
theorem gcsPtr_true (d : Bool) (w : Value) : gcsPtr d true w = select (bal d w) (link (!d) w) (link d w) := by
  have hmask : ∀ e, link e w &&& maskBits 31 = link e w := fun e => and_mask (link_lt e w)
  cases d with
  | false =>
      cases h : bal false w <;>
        simp [gcsPtr, selectBits, h, getLeftBal_eq_bal, getAVLLeftPtr_eq_link, getAVLRightPtr_eq_link, hmask]
  | true =>
      cases h : bal true w <;>
        simp [gcsPtr, selectBits, h, getRightBal_eq_bal, getAVLLeftPtr_eq_link, getAVLRightPtr_eq_link, hmask]

section Tree

variable {bound : Nat} {mem mem' : Nodes} {d : Bool} {a : Nat} {x y : LinkedTree} {okx oky : Prop}

theorem avlIff_branch {near far : Value} {bal_near bal_far : Bool} (ha : a ≠ 0)
    (hw : Fields d (mem.pointers a) near far bal_near bal_far) (hnear : near.toNat = x.root)
    (hfar : far.toNat = y.root) (hxy : x.height ≤ y.height + 1) (hyx : y.height ≤ x.height + 1)
    (hx : x.AvlIff (linkOf mem) (balOf mem) okx) (hy : y.AvlIff (linkOf mem) (balOf mem) oky) :
    (branch d a x y).AvlIff (linkOf mem) (balOf mem)
      ((bal_near = decide (y.height < x.height) ∧ bal_far = decide (x.height < y.height)) ∧ okx ∧ oky) := by
  rw [← hw.bal_near, ← hw.bal_far]
  exact .branch ha ((congrArg BitVec.toNat hw.near).trans hnear) ((congrArg BitVec.toNat hw.far).trans hfar)
    hxy hyx hx hy

theorem avlIff_congr (hx : x.AvlIff (linkOf mem) (balOf mem) okx)
    (heq : ∀ a ∈ x.toList, mem'.pointers a = mem.pointers a) :
    x.AvlIff (linkOf mem') (balOf mem') okx := by
  refine hx.congr fun a ha d => ?_
  unfold linkOf balOf
  rw [heq a ha]
  exact ⟨rfl, rfl⟩

theorem avlIff_setPointers (hx : x.AvlIff (linkOf mem) (balOf mem) okx) (ha : a ∉ x.toList) (w : Value) :
    x.AvlIff (linkOf (setPointers mem a w)) (balOf (setPointers mem a w)) okx :=
  avlIff_congr hx fun z hz => Function.update_of_ne (fun hza : z = a => ha (hza ▸ hz)) _ _

end Tree

/-- A node whose subtree `x` has become two levels lower than `y`; `nodeptrs` are its links. -/
structure Lowered (bound : Nat) (mem : Nodes) (d : Bool) (ptr cs_ptr nodeptrs : Value) (x y : LinkedTree)
    (okx : Prop) : Prop where
  ne_zero : ptr.toNat ≠ 0
  near : (link d nodeptrs).toNat = x.root
  far : link (!d) nodeptrs = cs_ptr
  root : cs_ptr.toNat = y.root
  tree : x.AvlIff (linkOf mem) (balOf mem) okx
  sibling : y.Avl (linkOf mem) (balOf mem)
  height : y.height = x.height + 2
  nodup : (branch d ptr.toNat x y).toList.Nodup
  inside : ptr.toNat < bound ∧ ∀ a ∈ y.toList, a < bound

section Lowered

variable {A : Shape oramSize} {width bound : Nat} (hroom : Room A width bound) (hfits : bound ≤ 2 ^ 31)
  {mem : Nodes} {ptr cs_ptr oldptrs nodeptrs : Value} {d : Bool} {ret : DelReturn} {x : LinkedTree}
  {okx : Prop}
include hroom hfits

theorem Lowered.single {u w : LinkedTree}
    (h : Lowered bound mem d ptr cs_ptr nodeptrs x (branch d cs_ptr.toNat u w) okx)
    (hold : mem.pointers ptr.toNat = oldptrs) (huw : u.height ≤ w.height) : ∃ mem' heavy,
      (∀ OPTIMIZED, fixImbalance OPTIMIZED A width mem ⟨ptr, width⟩ oldptrs ptr nodeptrs false false true d
        cs_ptr true ret = (mem', heavy, true, { ret with ret_ptr := cs_ptr })) ∧
      OnlyLinks mem mem' (ptr.toNat :: (branch d cs_ptr.toNat u w).toList) ∧
      (branch d cs_ptr.toNat (branch d ptr.toNat x u) w).AvlIff (linkOf mem') (balOf mem') okx ∧
      (branch d cs_ptr.toNat (branch d ptr.toNat x u) w).height + heavy.toNat = x.height + 3 := by
  obtain ⟨hpx, hpy, _, hndy, hxy⟩ := LinkedTree.nodup_branch.1 h.nodup
  obtain ⟨hcu, hcw, _, _, _⟩ := LinkedTree.nodup_branch.1 hndy
  obtain ⟨hc0, hcnear, hcfar, _, hwu, hbn, hbf, hu, hw⟩ := LinkedTree.Avl.branch_iff.1 h.sibling
  have hheight := h.height
  rw [LinkedTree.height_branch] at hheight
  simp only [LinkedTree.mem_branch, not_or] at hpy
  have hcx : cs_ptr.toNat ∉ x.toList := fun hin => hxy _ hin (LinkedTree.mem_branch.2 (.inl rfl))
  -- the node read for the grandchild is the root of `w`, and does not change
  obtain ⟨gcs_ptr, hgcs_eq⟩ : ∃ gcs_ptr, link (!d) (mem.pointers cs_ptr.toNat) = gcs_ptr := ⟨_, rfl⟩
  have hgcs_root : gcs_ptr.toNat = w.root := by
    rw [← hgcs_eq]
    exact hcfar
  have hgcs_mem : gcs_ptr.toNat ∈ w.toList := by
    rw [hgcs_root]
    exact LinkedTree.root_mem (LinkedTree.ne_nil_of_lt_height (n := 0) (by omega))
  have hbal : bal d (mem.pointers cs_ptr.toNat) = false := hbn.trans (decide_eq_false (by omega))
  have hgcs : gcsPtr d true (mem.pointers cs_ptr.toNat) = gcs_ptr := by
    rw [gcsPtr_true, hbal, select_false, hgcs_eq]
  have hcs_in : cs_ptr.toNat ∈ (branch d cs_ptr.toNat u w).toList := LinkedTree.mem_branch.2 (.inl rfl)
  have hgcs_in : gcs_ptr.toNat ∈ (branch d cs_ptr.toNat u w).toList :=
    LinkedTree.mem_branch.2 (.inr (.inr hgcs_mem))
  have hpg : ptr.toNat ≠ gcs_ptr.toNat := fun heq => hpy.2.2 (heq ▸ hgcs_mem)
  have hcg : cs_ptr.toNat ≠ gcs_ptr.toNat := fun heq => hcw (heq ▸ hgcs_mem)
  obtain ⟨new, hfix, hnode, hcs, hsame⟩ := @fixBalance_single ptr cs_ptr gcs_ptr d
    ⟨nodeptrs, mem.pointers cs_ptr.toNat, mem.pointers gcs_ptr.toNat⟩ (lt_of_lt_of_le h.inside.1 hfits)
    (lt_of_lt_of_le (h.inside.2 _ hcs_in) hfits) _ hbal hbf
  refine ⟨_, _, fixImbalance_true hroom h.inside.1 (h.inside.2 _ hcs_in) hold hgcs
    (h.inside.2 _ hgcs_in) hpy.1 hpg hcg hfix, onlyLinks_writeThree List.mem_cons_self
      (List.mem_cons_of_mem _ hcs_in) (List.mem_cons_of_mem _ hgcs_in), ?_, ?_⟩
  · rw [← @writeThree_node mem ptr.toNat cs_ptr.toNat gcs_ptr.toNat new] at hnode
    rw [← @writeThree_cs mem _ _ _ new hpy.1 hcg] at hcs
    have hkeep : ∀ a, a ≠ ptr.toNat → a ≠ cs_ptr.toNat →
        (writeThree mem ptr.toNat cs_ptr.toNat gcs_ptr.toNat new).pointers a = mem.pointers a := by
      intro a hap hac
      by_cases hag : a = gcs_ptr.toNat
      · rw [hag, writeThree_gcs hpg, hsame]
      · exact writeThree_other hap hac hag
    have hx := avlIff_congr h.tree fun a ha =>
      hkeep a (fun heq => hpx (heq ▸ ha)) fun heq => hcx (heq ▸ ha)
    have hu' := avlIff_congr hu.avlIff fun a ha =>
      hkeep a (fun heq => hpy.2.1 (heq ▸ ha)) fun heq => hcu (heq ▸ ha)
    have hw' := avlIff_congr hw.avlIff fun a ha =>
      hkeep a (fun heq => hpy.2.2 (heq ▸ ha)) fun heq => hcw (heq ▸ ha)
    have hp := avlIff_branch h.ne_zero hnode h.near hcnear (by omega) (by omega) hx hu'
    have hc := avlIff_branch hc0 hcs LinkedTree.root_branch.symm hcfar
      (by rw [LinkedTree.height_branch]; omega) (by rw [LinkedTree.height_branch]; omega) hp hw'
    refine hc.of_iff ?_
    rw [LinkedTree.height_branch, ← decide_not]
    simp only [decide_eq_decide, Bool.false_eq, decide_eq_false_iff_not]
    refine ⟨fun hbits => hbits.2.1.2.1, fun hok => ?_⟩
    exact ⟨⟨by omega, by omega⟩, ⟨⟨by omega, by omega⟩, hok, trivial⟩, trivial⟩
  · rw [LinkedTree.height_branch, LinkedTree.height_branch]
    by_cases hlt : u.height < w.height
    · rw [decide_eq_true hlt, Bool.toNat_true]
      omega
    · rw [decide_eq_false hlt, Bool.toNat_false]
      omega

theorem Lowered.double {g : Nat} {s v w : LinkedTree}
    (h : Lowered bound mem d ptr cs_ptr nodeptrs x (branch d cs_ptr.toNat (branch d g s v) w) okx)
    (hold : mem.pointers ptr.toNat = oldptrs) (huw : w.height < (branch d g s v).height) :
    ∃ mem' gcs_ptr, gcs_ptr.toNat = g ∧
      (∀ OPTIMIZED, fixImbalance OPTIMIZED A width mem ⟨ptr, width⟩ oldptrs ptr nodeptrs false false true d
        cs_ptr true ret = (mem', true, true, { ret with ret_ptr := gcs_ptr })) ∧
      OnlyLinks mem mem' (ptr.toNat :: (branch d cs_ptr.toNat (branch d g s v) w).toList) ∧
      (branch d g (branch d ptr.toNat x s) (branch d cs_ptr.toNat v w)).AvlIff (linkOf mem') (balOf mem')
        (okx ∧ ¬ s.height < v.height) ∧
      (branch d g (branch d ptr.toNat x s) (branch d cs_ptr.toNat v w)).height + 1 = x.height + 3 := by
  obtain ⟨hpx, hpy, _, hndy, hxy⟩ := LinkedTree.nodup_branch.1 h.nodup
  obtain ⟨hcu, hcw, hndu, _, hcross⟩ := LinkedTree.nodup_branch.1 hndy
  obtain ⟨hgs, hgv, _, _, _⟩ := LinkedTree.nodup_branch.1 hndu
  obtain ⟨hc0, hcnear, hcfar, hlean, hwu, hbn, hbf, hu, hw⟩ := LinkedTree.Avl.branch_iff.1 h.sibling
  obtain ⟨hg0, hgnear, hgfar, hsv, hvs, hbs, hbv, hs, hv⟩ := LinkedTree.Avl.branch_iff.1 hu
  have hgw : g ∉ w.toList := hcross g (LinkedTree.mem_branch.2 (.inl rfl))
  have hheight := h.height
  rw [LinkedTree.height_branch, LinkedTree.height_branch] at hheight
  rw [LinkedTree.height_branch] at huw hwu hlean
  have hyx : ∀ a ∈ (branch d cs_ptr.toNat (branch d g s v) w).toList, a ∉ x.toList :=
    fun a ha hax => hxy a hax ha
  simp only [LinkedTree.mem_branch, not_or] at hpy hcu
  -- the node read for the grandchild is the root of the inner subtree
  obtain ⟨gcs_ptr, hgcs_eq⟩ : ∃ gcs_ptr, link d (mem.pointers cs_ptr.toNat) = gcs_ptr := ⟨_, rfl⟩
  obtain rfl : gcs_ptr.toNat = g := by
    rw [← hgcs_eq]
    exact hcnear.trans LinkedTree.root_branch
  have hbal : bal d (mem.pointers cs_ptr.toNat) = true := by
    refine hbn.trans (decide_eq_true ?_)
    rw [LinkedTree.height_branch]
    exact huw
  have hother : bal (!d) (mem.pointers cs_ptr.toNat) = false := by
    refine hbf.trans (decide_eq_false ?_)
    rw [LinkedTree.height_branch]
    omega
  have hgcs : gcsPtr d true (mem.pointers cs_ptr.toNat) = gcs_ptr := by
    rw [gcsPtr_true, hbal, select_true, hgcs_eq]
  have hcs_in : cs_ptr.toNat ∈ (branch d cs_ptr.toNat (branch d gcs_ptr.toNat s v) w).toList :=
    LinkedTree.mem_branch.2 (.inl rfl)
  have hgcs_in : gcs_ptr.toNat ∈ (branch d cs_ptr.toNat (branch d gcs_ptr.toNat s v) w).toList :=
    LinkedTree.mem_branch.2 (.inr (.inl (LinkedTree.mem_branch.2 (.inl rfl))))
  have hpg : ptr.toNat ≠ gcs_ptr.toNat := hpy.2.1.1
  have hcg : cs_ptr.toNat ≠ gcs_ptr.toNat := hcu.1
  obtain ⟨new, hfix, hnode, hcs, hnew⟩ := @fixBalance_double ptr cs_ptr gcs_ptr d
    ⟨nodeptrs, mem.pointers cs_ptr.toNat, mem.pointers gcs_ptr.toNat⟩ (lt_of_lt_of_le h.inside.1 hfits)
    (lt_of_lt_of_le (h.inside.2 _ hcs_in) hfits) _ _ (lt_of_lt_of_le (h.inside.2 _ hgcs_in) hfits) hbal
    hother hbs hbv
  refine ⟨_, gcs_ptr, rfl, fixImbalance_true hroom h.inside.1 (h.inside.2 _ hcs_in) hold hgcs
    (h.inside.2 _ hgcs_in) hpy.1 hpg hcg hfix, onlyLinks_writeThree List.mem_cons_self
      (List.mem_cons_of_mem _ hcs_in) (List.mem_cons_of_mem _ hgcs_in), ?_, ?_⟩
  · rw [← @writeThree_node mem ptr.toNat cs_ptr.toNat gcs_ptr.toNat new] at hnode
    rw [← @writeThree_cs mem _ _ _ new hpy.1 hcg] at hcs
    rw [← @writeThree_gcs mem _ cs_ptr.toNat _ new hpg] at hnew
    have hkeep : ∀ {t : LinkedTree} {ok : Prop}, t.AvlIff (linkOf mem) (balOf mem) ok →
        ptr.toNat ∉ t.toList → cs_ptr.toNat ∉ t.toList → gcs_ptr.toNat ∉ t.toList →
        t.AvlIff (linkOf (writeThree mem ptr.toNat cs_ptr.toNat gcs_ptr.toNat new))
          (balOf (writeThree mem ptr.toNat cs_ptr.toNat gcs_ptr.toNat new)) ok :=
      fun ht hp hc hg => avlIff_congr ht fun a ha => writeThree_other (fun heq => hp (heq ▸ ha))
        (fun heq => hc (heq ▸ ha)) fun heq => hg (heq ▸ ha)
    have hx' := hkeep h.tree hpx (hyx _ hcs_in) (hyx _ hgcs_in)
    have hs' := hkeep hs.avlIff hpy.2.1.2.1 hcu.2.1 hgs
    have hv' := hkeep hv.avlIff hpy.2.1.2.2 hcu.2.2 hgv
    have hw' := hkeep hw.avlIff hpy.2.2 hcw hgw
    have hp := avlIff_branch h.ne_zero hnode h.near hgnear (by omega) (by omega) hx' hs'
    have hc := avlIff_branch hc0 hcs hgfar hcfar (by omega) (by omega) hv' hw'
    have hg := avlIff_branch hg0 hnew LinkedTree.root_branch.symm LinkedTree.root_branch.symm
      (by simp only [LinkedTree.height_branch]; omega) (by simp only [LinkedTree.height_branch]; omega) hp hc
    refine hg.of_iff ?_
    simp only [LinkedTree.height_branch, Bool.false_eq, decide_eq_false_iff_not, decide_eq_decide]
    constructor
    · rintro ⟨⟨_, hfar⟩, ⟨_, hok, _⟩, _⟩
      exact ⟨hok, by omega⟩
    · rintro ⟨hok, hle⟩
      exact ⟨⟨by omega, by omega⟩, ⟨⟨by omega, by omega⟩, hok, trivial⟩, ⟨by omega, by omega⟩, trivial, trivial⟩
  · simp only [LinkedTree.height_branch]
    omega

/-- The rotations rebalance the node, in both modes. -/
theorem Lowered.fixed {y : LinkedTree} (h : Lowered bound mem d ptr cs_ptr nodeptrs x y okx)
    (hold : mem.pointers ptr.toNat = oldptrs) : ∃ mem' bal_upd' new_ptr,
      (∀ OPTIMIZED, fixImbalance OPTIMIZED A width mem ⟨ptr, width⟩ oldptrs ptr nodeptrs false false true d
        cs_ptr true ret = (mem', bal_upd', true, { ret with ret_ptr := new_ptr })) ∧
      OnlyLinks mem mem' (ptr.toNat :: y.toList) ∧
      new_ptr.toNat = (LinkedTree.rebalance d ptr.toNat x y).root ∧
      (LinkedTree.rebalance d ptr.toNat x y).AvlIff (linkOf mem') (balOf mem')
        (okx ∧ ¬ LinkedTree.Crossed d x y) ∧
      (LinkedTree.rebalance d ptr.toNat x y).height + bal_upd'.toNat = x.height + 3 := by
  have hheight := h.height
  obtain ⟨u, w, hy⟩ := LinkedTree.exists_branch
    (LinkedTree.ne_nil_of_lt_height (n := 0) (t := y) (by omega)) d
  rw [← h.root] at hy
  subst hy
  rcases Nat.lt_or_ge w.height u.height with hlt | hle
  · obtain ⟨s, v, hu⟩ := LinkedTree.exists_branch (LinkedTree.ne_nil_of_lt_height hlt) d
    generalize u.root = g at hu
    subst hu
    obtain ⟨mem', gcs_ptr, rfl, hfix, honly, htree, hnew⟩ :=
      @Lowered.double _ _ _ _ hroom hfits _ _ _ _ _ _ ret _ _ _ _ _ _ h hold hlt
    have hlow : x.height + 1 < (branch d cs_ptr.toNat (branch d gcs_ptr.toNat s v) w).height := by omega
    rw [LinkedTree.rebalance_double hlow hlt, LinkedTree.crossed_double hlow hlt]
    exact ⟨mem', true, gcs_ptr, hfix, honly, LinkedTree.root_branch.symm, htree, hnew⟩
  · obtain ⟨mem', heavy, hfix, honly, htree, hnew⟩ :=
      @Lowered.single _ _ _ _ hroom hfits _ _ _ _ _ _ ret _ _ _ _ h hold hle
    rw [LinkedTree.rebalance_single (by omega) hle]
    exact ⟨mem', heavy, cs_ptr, hfix, honly, LinkedTree.root_branch.symm,
      htree.of_iff (by simp [LinkedTree.not_crossed_single hle]), hnew⟩

end Lowered

end AVL

end Prac
