import Prac.AvlFix
import Prac.AvlInsert
import Prac.BstInsert

/-!
# AVL deletion

* `AVL.delBack` — the way back of the recursive `del`, `delRec_succ`.
* `AVL.Shrunk` — what the recursion leaves of a subtree; `AVL.delBack_spec` — a node above it.
-/

namespace Prac

namespace AVL

open LinkedTree (branch)

variable {oramSize : Nat}

/-! ## The way back -/

/-- The way back of the recursive `del` at a node with the links `pointers`. -/
def delBack (OPTIMIZED : Bool) (A : Shape oramSize) (width : Nat) (mem : Nodes) (ptr pointers : Value)
    (c_prime F_rs bal_upd : Bool) (ret_struct : DelReturn) : (Bool × Bool) × Nodes × DelReturn :=
  let left := getAVLLeftPtr pointers
  let right := getAVLRightPtr pointers
  let cs_ptr := selectBits 31 c_prime right left
  let (left, right) := updateChildPointers left right c_prime ret_struct
  let nodeptrs := setAVLLeftPtr pointers left
  let nodeptrs := setAVLRightPtr nodeptrs right
  let ret_struct := { ret_struct with F_r := false }
  let (new_p_bal_l, new_p_bal_r, bal_upd, imb) :=
    updateBalanceDel (getLeftBal nodeptrs) (getRightBal nodeptrs) bal_upd c_prime
  let (mem, bal_upd, F_ri, ret_struct) :=
    fixImbalance OPTIMIZED A width mem ⟨ptr, width⟩ pointers ptr nodeptrs new_p_bal_l new_p_bal_r bal_upd
      c_prime cs_ptr imb ret_struct
  let (bal_upd, ret_struct) := updateRetStruct ptr F_rs F_ri bal_upd ret_struct
  ((true, bal_upd), mem, ret_struct)

/-- The return structure on the way down. -/
def delDown (ptr : Value) (F : DelFlags) (ret_struct : DelReturn) : DelReturn :=
  { ret_struct with
    F_ss := ret_struct.F_ss || F.F_c2
    N_d := select F.F_dh ret_struct.N_d ptr
    N_s := select F.F_sf ret_struct.N_s ptr }

/-- The node has the key. -/
def found (mem : Nodes) (del_key : Value) (addr : Nat) : Bool := decide (del_key = mem.key addr)

theorem compare_found (mem : Nodes) (del_key : Value) (addr : Nat) :
    (signedCompare (del_key - mem.key addr)).2 = (found mem del_key addr, goRight mem del_key addr) := by
  refine Prod.ext ?_ rfl
  exact decide_eq_decide.2 sub_eq_zero

theorem goRight_of_found {mem : Nodes} {del_key : Value} {addr : Nat} (h : found mem del_key addr = true) :
    goRight mem del_key addr = false := by
  have hkey : del_key - mem.key addr = 0 := sub_eq_zero.2 (of_decide_eq_true h)
  exact decide_eq_false fun hgt => hgt.1 hkey

/-- One step of the recursion. -/
theorem delRec_succ {A : Shape oramSize} {width bound : Nat} (hroom : Room A width bound)
    {mem : Nodes} {ptr : Value} (hptr : ptr.toNat < bound) {del_key pointers : Value}
    (hw : mem.pointers ptr.toNat = pointers) {found find_successor : Bool} {F : DelFlags}
    (hF : delFlags (decide (link false pointers = 0)) (decide (link true pointers = 0))
      (AVL.found mem del_key ptr.toNat) (goRight mem del_key ptr.toNat) found find_successor = F)
    (OPTIMIZED : Bool) (TTL : Nat) (ret : DelReturn) :
    delRec OPTIMIZED A width del_key (TTL + 1) ptr found find_successor (mem, ret) =
      match delRec OPTIMIZED A width del_key TTL (link F.c_prime pointers) F.found_prime
          F.find_successor_prime (mem, delDown ptr F ret) with
      | ((false, _), mem, ret) => ((false, false), mem, ret)
      | ((true, bal_upd), mem, ret) =>
        delBack OPTIMIZED A width mem ptr pointers F.c_prime F.F_rs bal_upd ret := by
  obtain ⟨lt, hcmp⟩ : ∃ lt, signedCompare (del_key - mem.key ptr.toNat) =
      (lt, AVL.found mem del_key ptr.toNat, goRight mem del_key ptr.toNat) :=
    ⟨_, Prod.ext rfl (compare_found mem del_key ptr.toNat)⟩
  have hF : delFlags (decide (getAVLLeftPtr pointers = 0)) (decide (getAVLRightPtr pointers = 0))
      (AVL.found mem del_key ptr.toNat) (goRight mem del_key ptr.toNat) found find_successor = F := hF
  rw [delRec]
  simp only [readNode_eq hroom OPTIMIZED mem hptr, Nodes.holds, hw, hcmp, selectBits_link, hF]
  rfl

/-- The step on the way back from a recursion that found the key. -/
theorem delRec_return {A : Shape oramSize} {width bound : Nat} (hroom : Room A width bound)
    {mem mem' : Nodes} {ptr : Value} (hptr : ptr.toNat < bound) {del_key pointers : Value}
    (hw : mem.pointers ptr.toNat = pointers) {found find_successor bal_upd : Bool} {F : DelFlags}
    (hF : delFlags (decide (link false pointers = 0)) (decide (link true pointers = 0))
      (AVL.found mem del_key ptr.toNat) (goRight mem del_key ptr.toNat) found find_successor = F)
    {OPTIMIZED : Bool} {TTL : Nat} {ret ret' : DelReturn}
    (hrec : delRec OPTIMIZED A width del_key TTL (link F.c_prime pointers) F.found_prime
      F.find_successor_prime (mem, delDown ptr F ret) = ((true, bal_upd), mem', ret')) :
    delRec OPTIMIZED A width del_key (TTL + 1) ptr found find_successor (mem, ret) =
      delBack OPTIMIZED A width mem' ptr pointers F.c_prime F.F_rs bal_upd ret' := by
  rw [delRec_succ hroom hptr hw hF, hrec]

/-- The child fits a link, whether it was replaced or not. -/
theorem child_lt {ret : DelReturn} (hret : ret.ret_ptr.toNat < 2 ^ 31) (d : Bool) (w : Value) :
    (select ret.F_r (link d w) ret.ret_ptr).toNat < 2 ^ 31 := by
  cases ret.F_r with
  | false => exact link_lt d w
  | true => exact hret

/-- The links with the child replaced, if that was returned. -/
theorem childPointers_eq {ret : DelReturn} (hret : ret.ret_ptr.toNat < 2 ^ 31) (d : Bool) (w : Value) :
    setAVLRightPtr (setAVLLeftPtr w (updateChildPointers (getAVLLeftPtr w) (getAVLRightPtr w) d ret).1)
        (updateChildPointers (getAVLLeftPtr w) (getAVLRightPtr w) d ret).2 =
      setLink d w (select ret.F_r (link d w) ret.ret_ptr) := by
  cases d with
  | false =>
      simp only [updateChildPointers, Bool.not_false, Bool.true_and, Bool.false_and, select_false]
      exact setLinks_left (child_lt hret false w)
  | true =>
      simp only [updateChildPointers, Bool.not_true, Bool.true_and, Bool.false_and, select_false]
      exact setLinks_right w _

theorem delBack_eq {OPTIMIZED : Bool} {A : Shape oramSize} {width : Nat} {mem mem' : Nodes}
    {ptr w : Value} {d F_rs bal_upd bal_l bal_r bal_upd' imb bal_upd'' F_ri : Bool} {ret ret' : DelReturn}
    (hret : ret.ret_ptr.toNat < 2 ^ 31)
    (hbal : updateBalanceDel (bal false w) (bal true w) bal_upd d = (bal_l, bal_r, bal_upd', imb))
    (hfix : fixImbalance OPTIMIZED A width mem ⟨ptr, width⟩ w ptr
      (setLink d w (select ret.F_r (link d w) ret.ret_ptr)) bal_l bal_r bal_upd' d (link (!d) w) imb
      { ret with F_r := false } = (mem', bal_upd'', F_ri, ret')) :
    delBack OPTIMIZED A width mem ptr w d F_rs bal_upd ret =
      ((true, (updateRetStruct ptr F_rs F_ri bal_upd'' ret').1), mem',
        (updateRetStruct ptr F_rs F_ri bal_upd'' ret').2) := by
  have hcs : selectBits 31 d (getAVLRightPtr w) (getAVLLeftPtr w) = link (!d) w := by
    refine (selectBits_eq (link_lt true w) (link_lt false w)).trans ?_
    cases d <;> rfl
  unfold delBack
  simp only [childPointers_eq hret, getLeftBal_eq_bal, getRightBal_eq_bal,
    bal_setLink (child_lt hret d w), hbal, hcs, hfix]

/-! ## Above a subtree without one of its nodes -/

/-- What the recursion leaves of a subtree `t` at `ptr` without one of its nodes: the tree `t'`, whose bits
are right iff `ok`. -/
structure Shrunk (bound : Nat) (mem : Nodes) (t t' : LinkedTree) (ptr : Value) (bal_upd : Bool)
    (ret : DelReturn) (ok : Prop) : Prop where
  root : (select ret.F_r ptr ret.ret_ptr).toNat = t'.root
  fits : ret.ret_ptr.toNat < bound
  tree : t'.AvlIff (linkOf mem) (balOf mem) ok
  height : t'.height + bal_upd.toNat = t.height
  sub : t'.toList.Sublist t.toList

theorem Shrunk.of_iff {bound : Nat} {mem : Nodes} {t t' : LinkedTree} {ptr : Value} {bal_upd : Bool}
    {ret : DelReturn} {ok ok' : Prop} (h : Shrunk bound mem t t' ptr bal_upd ret ok) (hiff : ok ↔ ok') :
    Shrunk bound mem t t' ptr bal_upd ret ok' :=
  ⟨h.root, h.fits, h.tree.of_iff hiff, h.height, h.sub⟩

/-- The parts of the return structure that the way back leaves. -/
structure SameNodes (ret ret' : DelReturn) : Prop where
  F_ss : ret'.F_ss = ret.F_ss
  N_d : ret'.N_d = ret.N_d
  N_s : ret'.N_s = ret.N_s

theorem sublist_rebalance {d : Bool} {a : Nat} {x x' y : LinkedTree} (h : x'.toList.Sublist x.toList) :
    (LinkedTree.rebalance d a x' y).toList.Sublist (branch d a x y).toList := by
  rw [LinkedTree.toList_rebalance]
  cases d with
  | false => exact h.append (List.Sublist.refl _)
  | true => exact (List.Sublist.refl _).append (h.cons_cons a)

section Inside

variable {bound : Nat} {mem : Nodes} {t : LinkedTree} (h0 : 0 < bound) (hin : ∀ a ∈ t.toList, a < bound)
include h0 hin

theorem root_inside : t.root < bound := by
  by_cases hne : t = .nil
  · rw [hne]
    exact h0
  · exact hin _ (LinkedTree.root_mem hne)

/-- The links of a root, or of the node 0. -/
theorem root_link_inside (ht : t.Avl (linkOf mem) (balOf mem)) (hzero : mem.pointers 0 = 0) (d : Bool) :
    (link d (mem.pointers t.root)).toNat < bound := by
  by_cases hne : t = .nil
  · rw [hne, LinkedTree.root_nil, hzero, link_zero]
    exact h0
  · obtain ⟨x, y, hsplit⟩ := LinkedTree.exists_branch hne d
    rw [hsplit] at ht
    obtain ⟨_, hlink, _⟩ := LinkedTree.Avl.branch_iff.1 ht
    refine (show _ = x.root from hlink).trans_lt (root_inside h0 fun a ha => hin a ?_)
    rw [hsplit]
    exact LinkedTree.mem_branch.2 (.inr (.inl ha))

end Inside

section Back

variable {A : Shape oramSize} {width bound : Nat} (hroom : Room A width bound) (hfits : bound ≤ 2 ^ 31)
  {mem₀ mem : Nodes} {ptr : Value} {d : Bool} {x x' y : LinkedTree} {bal_upd : Bool} {ret : DelReturn}
  {ok : Prop}

include hroom hfits in
/-- Without an imbalance. -/
theorem delBack_quiet {bal_l bal_r bal_upd' : Bool} {w : Value}
    (hret : ret.ret_ptr.toNat < bound) (hptr : ptr.toNat < bound) (hold : mem.pointers ptr.toNat = w)
    (hcs : (link (!d) w).toNat < bound)
    (hgcs : ∀ e, (link e (mem.pointers (link (!d) w).toNat)).toNat < bound)
    (hbal : updateBalanceDel (bal false w) (bal true w) bal_upd d = (bal_l, bal_r, bal_upd', false))
    (F_rs OPTIMIZED : Bool) : delBack OPTIMIZED A width mem ptr w d F_rs bal_upd ret =
      ((true, select F_rs bal_upd' true),
        setPointers mem ptr.toNat (setRightBal (setLeftBal (setLink d w (select ret.F_r (link d w) ret.ret_ptr))
          bal_l) bal_r), { ret with F_r := F_rs, ret_ptr := select F_rs ptr ret.ret_ptr }) := by
  obtain ⟨e, he⟩ := gcsPtr_false d (mem.pointers (link (!d) w).toNat)
  have hfix := @fixImbalance_quiet _ _ _ _ hroom mem ptr (link (!d) w) w
    (setLink d w (select ret.F_r (link d w) ret.ret_ptr)) bal_l bal_r bal_upd' d { ret with F_r := false }
    hptr hcs hold (by rw [he]; exact hgcs e) OPTIMIZED
  rw [delBack_eq (lt_of_lt_of_le hret hfits) hbal hfix]
  cases F_rs <;> rfl

/-- What `delBack` is to leave above a subtree without one of its nodes. -/
def Rebalanced (A : Shape oramSize) (width bound : Nat) (mem₀ mem : Nodes) (ptr : Value) (d : Bool)
    (x x' y : LinkedTree) (bal_upd : Bool) (ret : DelReturn) (ok : Prop) : Prop :=
  ∃ mem' bal_upd' ret', (∀ OPTIMIZED, delBack OPTIMIZED A width mem ptr (mem₀.pointers ptr.toNat) d false
      bal_upd ret = ((true, bal_upd'), mem', ret')) ∧
    OnlyLinks mem₀ mem' (branch d ptr.toNat x y).toList ∧
    Shrunk bound mem' (branch d ptr.toNat x y) (LinkedTree.rebalance d ptr.toNat x' y) ptr bal_upd' ret'
      (ok ∧ ¬ LinkedTree.Crossed d x' y) ∧ SameNodes ret ret'

/-- What stays of a node with the links `w`, and of its subtree `y`, when the deletion went into the other. -/
structure Framed (bound : Nat) (mem : Nodes) (d : Bool) (ptr w : Value) (y : LinkedTree) : Prop where
  pointers : mem.pointers ptr.toNat = w
  root : (link (!d) w).toNat = y.root
  sibling : y.Avl (linkOf mem) (balOf mem)
  inside : ptr.toNat < bound ∧ ∀ a ∈ y.toList, a < bound

section Above

variable (h : AvlAt bound mem₀ ptr (branch d ptr.toNat x y)) (honly : OnlyLinks mem₀ mem x.toList)
include h honly

theorem delete_frame {w : Value} (hw : mem₀.pointers ptr.toNat = w) : Framed bound mem d ptr w y := by
  obtain ⟨_, _, hyroot, _, _, _, _, _, hy⟩ := LinkedTree.Avl.branch_iff.1 h.avl
  obtain ⟨hax, _, _, _, hcross⟩ := LinkedTree.nodup_branch.1 h.nodup
  refine ⟨(honly.pointers _ hax).trans hw, hw ▸ hyroot, ?_, h.inside _ (LinkedTree.mem_branch.2 (.inl rfl)),
    fun a ha => h.inside a (LinkedTree.mem_branch.2 (.inr (.inr ha)))⟩
  exact avl_congr hy fun a ha => honly.pointers a fun hin => hcross a hin ha

variable (hzero : mem₀.pointers 0 = 0)
  (hx : Shrunk bound mem x x' (link d (mem₀.pointers ptr.toNat)) bal_upd ret ok)
include hroom hfits hzero hx

/-- The subtrees still balance. -/
theorem rebalanced_quiet {bal_l bal_r bal_upd' : Bool}
    (hxy : x'.height ≤ y.height + 1) (hyx : y.height ≤ x'.height + 1)
    (hbal : updateBalanceDel (bal false (mem₀.pointers ptr.toNat)) (bal true (mem₀.pointers ptr.toNat)) bal_upd d =
      (bal_l, bal_r, bal_upd', false))
    (hnear : select d bal_l bal_r = decide (y.height < x'.height))
    (hfar : select (!d) bal_l bal_r = decide (x'.height < y.height))
    (hheight : (branch d ptr.toNat x' y).height + bal_upd'.toNat = (branch d ptr.toNat x y).height) :
    Rebalanced A width bound mem₀ mem ptr d x x' y bal_upd ret ok := by
  obtain ⟨ha, _, _, _, _, _, _, hxavl, _⟩ := LinkedTree.Avl.branch_iff.1 h.avl
  obtain ⟨hax, hay, _, _, _⟩ := LinkedTree.nodup_branch.1 h.nodup
  obtain ⟨w, hw⟩ : ∃ w, mem₀.pointers ptr.toNat = w := ⟨_, rfl⟩
  obtain ⟨hold, hyroot, hy, hptr, hinside⟩ := delete_frame h honly hw
  unfold Rebalanced
  rw [hw] at hbal hx ⊢
  have hzero' : mem.pointers 0 = 0 :=
    (honly.pointers 0 fun hin => hxavl.stored.ne_zero 0 hin rfl).trans hzero
  have hcs : (link (!d) w).toNat < bound := hyroot ▸ root_inside (Nat.zero_lt_of_lt hptr) hinside
  have hgcs : ∀ e, (link e (mem.pointers (link (!d) w).toNat)).toNat < bound :=
    hyroot ▸ root_link_inside (Nat.zero_lt_of_lt hptr) hinside hy hzero'
  have hchild := child_lt (lt_of_lt_of_le hx.fits hfits) d w
  refine ⟨_, _, _, delBack_quiet hroom hfits hx.fits hptr hold hcs hgcs hbal false,
    (honly.mono fun a ha => LinkedTree.mem_branch.2 (.inr (.inl ha))).setPointers
      (LinkedTree.mem_branch.2 (.inl rfl)) _, ⟨?_, hptr, ?_, ?_, sublist_rebalance hx.sub⟩, rfl, rfl, rfl⟩
  · rw [LinkedTree.rebalance_quiet hyx]
    exact LinkedTree.root_branch.symm
  · rw [LinkedTree.rebalance_quiet hyx]
    generalize hnew : setRightBal (setLeftBal (setLink d w (select ret.F_r (link d w) ret.ret_ptr)) bal_l)
      bal_r = new
    have hfields : Fields d new (select ret.F_r (link d w) ret.ret_ptr) (link (!d) w)
        (select d bal_l bal_r) (select (!d) bal_l bal_r) := by
      rw [← hnew]
      refine ⟨?_, ?_, bal_setBals _ _ _ _, bal_setBals _ _ _ _⟩
      · rw [link_setBals, link_setLink hchild, if_pos rfl]
      · rw [link_setBals, link_setLink hchild, if_neg (by simp)]
    rw [← show (setPointers mem ptr.toNat new).pointers ptr.toNat = new from Function.update_self _ _ _]
      at hfields
    have hx' := avlIff_setPointers hx.tree (fun hin => hax (hx.sub.subset hin)) new
    have hy' := avlIff_setPointers hy.avlIff hay new
    refine (avlIff_branch ha hfields hx.root hyroot hxy hyx hx' hy').of_iff ?_
    simp only [hnear, hfar, true_and, and_true, LinkedTree.not_crossed_quiet hyx, not_false_eq_true]
  · rw [LinkedTree.rebalance_quiet hyx]
    exact hheight

omit hzero in
/-- The subtree that was the lower one has become still lower: there is an imbalance. -/
theorem rebalanced_rotated (hheight : y.height = x'.height + 2)
    (hbal : updateBalanceDel (bal false (mem₀.pointers ptr.toNat)) (bal true (mem₀.pointers ptr.toNat)) bal_upd d =
      (false, false, true, true)) (hxy : x.height < y.height) :
    Rebalanced A width bound mem₀ mem ptr d x x' y bal_upd ret ok := by
  obtain ⟨hax, hay, hndx, hndy, hcross⟩ := LinkedTree.nodup_branch.1 h.nodup
  obtain ⟨w, hw⟩ : ∃ w, mem₀.pointers ptr.toNat = w := ⟨_, rfl⟩
  obtain ⟨hold, hyroot, hy, hptr, hinside⟩ := delete_frame h honly hw
  unfold Rebalanced
  rw [hw] at hbal hx ⊢
  have ha := h.avl.stored.ne_zero _ (LinkedTree.mem_branch.2 (.inl rfl))
  have hret : ret.ret_ptr.toNat < 2 ^ 31 := lt_of_lt_of_le hx.fits hfits
  have hchild := child_lt hret d w
  have hnodup : (branch d ptr.toNat x' y).toList.Nodup :=
    LinkedTree.nodup_branch.2 ⟨fun hin => hax (hx.sub.subset hin), hay, hndx.sublist hx.sub, hndy,
      fun a hax' => hcross a (hx.sub.subset hax')⟩
  have hlowered : Lowered bound mem d ptr (link (!d) w)
      (setLink d w (select ret.F_r (link d w) ret.ret_ptr)) x' y ok := by
    refine ⟨ha, ?_, ?_, hyroot, hx.tree, hy, hheight, hnodup, hptr, hinside⟩
    · rw [link_setLink hchild, if_pos rfl]
      exact hx.root
    · rw [link_setLink hchild, if_neg (by simp)]
  obtain ⟨mem', bal_upd', new_ptr, hfix, honly', hroot, htree, hnew⟩ :=
    @Lowered.fixed _ _ _ _ hroom hfits mem ptr _ w _ d { ret with F_r := false } x' ok y hlowered hold
  have hsub := @sublist_rebalance d ptr.toNat x x' y hx.sub
  have hfits' : new_ptr.toNat < bound := hroot ▸ root_inside (Nat.zero_lt_of_lt hptr) fun a ha =>
    h.inside a (hsub.subset ha)
  refine ⟨mem', bal_upd', { ret with F_r := true, ret_ptr := new_ptr }, fun OPTIMIZED => ?_, ?_,
    ⟨hroot, hfits', htree, ?_, hsub⟩, rfl, rfl, rfl⟩
  · rw [delBack_eq hret hbal (hfix OPTIMIZED)]
    rfl
  · refine (honly.mono fun a ha => LinkedTree.mem_branch.2 (.inr (.inl ha))).trans (honly'.mono fun a ha => ?_)
    exact LinkedTree.mem_branch.2 ((List.mem_cons.1 ha).imp id .inr)
  · rw [LinkedTree.height_branch]
    omega

/-- **A node above a subtree without one of its nodes** is rebalanced, in both modes. -/
theorem delBack_spec : Rebalanced A width bound mem₀ mem ptr d x x' y bal_upd ret ok := by
  obtain ⟨_, _, _, hxy, hyx, hbn, hbf, _, _⟩ := LinkedTree.Avl.branch_iff.1 h.avl
  have hshrunk := hx.height
  have hbn : bal d (mem₀.pointers ptr.toNat) = decide (y.height < x.height) := hbn
  have hbf : bal (!d) (mem₀.pointers ptr.toNat) = decide (x.height < y.height) := hbf
  cases bal_upd with
  | false =>
      rw [Bool.toNat_false, Nat.add_zero] at hshrunk
      refine rebalanced_quiet hroom hfits h honly hzero hx (by omega) (by omega) (updateBalanceDel_false _ _ d)
        ?_ ?_ ?_
      · rw [hshrunk, ← hbn]
        cases d <;> rfl
      · rw [hshrunk, ← hbf]
        cases d <;> rfl
      · rw [LinkedTree.height_branch, LinkedTree.height_branch, hshrunk]
        rfl
  | true =>
      rw [Bool.toNat_true] at hshrunk
      have hboth : (bal false (mem₀.pointers ptr.toNat) && bal true (mem₀.pointers ptr.toNat)) = false := by
        have hand : (bal d (mem₀.pointers ptr.toNat) && bal (!d) (mem₀.pointers ptr.toNat)) = false := by
          rw [hbn, hbf, ← Bool.decide_and]
          exact decide_eq_false (by omega)
        cases d with
        | false => exact hand
        | true => rwa [Bool.and_comm] at hand
      have hheavy : (bal false (mem₀.pointers ptr.toNat) || bal true (mem₀.pointers ptr.toNat)) =
          !decide (x.height = y.height) := by
        have hor : (bal d (mem₀.pointers ptr.toNat) || bal (!d) (mem₀.pointers ptr.toNat)) =
            !decide (x.height = y.height) := by
          rw [hbn, hbf, ← Bool.decide_or, ← decide_not, decide_eq_decide]
          omega
        cases d with
        | false => exact hor
        | true => rwa [Bool.or_comm] at hor
      have himb : select d (bal true (mem₀.pointers ptr.toNat)) (bal false (mem₀.pointers ptr.toNat)) =
          decide (x.height < y.height) := by
        rw [← hbf]
        cases d <;> rfl
      have hbal := updateBalanceDel_true d hboth
      dsimp only at hbal
      rw [hheavy, himb, Bool.not_not] at hbal
      rcases lt_trichotomy x.height y.height with hlt | heq | hgt
      · rw [decide_eq_false (by omega), decide_eq_true hlt] at hbal
        refine rebalanced_rotated hroom hfits h honly hx (by omega) ?_ hlt
        rw [hbal]
        cases d <;> rfl
      · rw [decide_eq_true heq, decide_eq_false (by omega)] at hbal
        refine rebalanced_quiet hroom hfits h honly hzero hx (by omega) (by omega) hbal ?_ ?_ ?_
        · rw [decide_eq_false (by omega)]
          cases d <;> rfl
        · rw [decide_eq_true (by omega)]
          cases d <;> rfl
        · simp only [LinkedTree.height_branch, Bool.not_true, Bool.toNat_false]
          omega
      · rw [decide_eq_false (by omega), decide_eq_false (by omega)] at hbal
        refine rebalanced_quiet hroom hfits h honly hzero hx (by omega) (by omega) hbal ?_ ?_ ?_
        · rw [decide_eq_false (by omega)]
          cases d <;> rfl
        · rw [decide_eq_false (by omega)]
          cases d <;> rfl
        · simp only [LinkedTree.height_branch, Bool.not_false, Bool.toNat_true]
          omega

end Above

end Back

/-! ## The recursion -/

/-- The flags on the way to the key. -/
theorem delFlags_pass (l0 r0 gt : Bool) : delFlags l0 r0 false gt false false =
    ⟨false, false, false, false, gt, false, false⟩ := by
  cases l0 <;> cases r0 <;> rfl

theorem delFlags_below (eq gt : Bool) : delFlags true true eq gt true false =
    ⟨false, false, false, false, gt, true, false⟩ := by
  cases eq <;> rfl

theorem delFlags_one {l0 r0 : Bool} (h : l0 = true ∨ r0 = true) : delFlags l0 r0 true false false false =
    ⟨true, true, false, false, !r0, true, false⟩ := by
  cases l0 <;> cases r0 <;> first | rfl | simp at h

theorem delFlags_two : delFlags false false true false false false =
    ⟨true, false, true, false, true, true, true⟩ := rfl

theorem delFlags_left (r0 eq : Bool) : delFlags false r0 eq false true true =
    ⟨false, false, eq && !r0, false, false, true, true⟩ := by
  cases r0 <;> cases eq <;> rfl

theorem delFlags_successor (r0 eq : Bool) : delFlags true r0 eq false true true =
    ⟨false, true, false, true, true, true, false⟩ := by
  cases r0 <;> cases eq <;> rfl

theorem ordered_branch {key : Nat → Nat} {d : Bool} {a : Nat} {x y : LinkedTree}
    (h : (branch d a x y).Ordered (· ≤ ·) key) : x.Ordered (· ≤ ·) key := by
  cases d with
  | false => exact h.2.2.1
  | true => exact h.2.2.2

/-- To the right of a node with the key no key is smaller. -/
theorem goRight_above {mem : Nodes} {del_key : Value} {a : Nat} {l r : LinkedTree}
    (hord : (branch true a r l).Ordered (· ≤ ·) (BST.keyOf mem))
    (hkeys : ∀ x ∈ (branch true a r l).toList, BST.keyOf mem x < 2 ^ 63)
    (hhere : found mem del_key a = true) : ∀ x ∈ r.toList, goRight mem del_key x = false := by
  intro x hx
  have hkey : del_key = mem.key a := of_decide_eq_true hhere
  have hle : BST.keyOf mem a ≤ BST.keyOf mem x := hord.2.1 x hx
  have ha := hkeys a (LinkedTree.mem_branch.2 (.inl rfl))
  have hcompare := BST.compare_node (show del_key.toNat < 2 ^ 63 from hkey ▸ ha)
    (hkeys x (LinkedTree.mem_branch.2 (.inr (.inl hx))))
  refine (congrArg (fun p => p.2.2) hcompare).trans (decide_eq_false ?_)
  rw [hkey]
  exact Nat.not_lt.2 hle

/-- Where the return structure says the found node is, and the successor that takes its place. -/
structure Located (s : LinkedTree) (ret : DelReturn) : Prop where
  N_d : ret.N_d.toNat = s.root
  N_s : ret.N_s.toNat = if ret.F_ss then s.vacated else 0
  F_ss : ret.F_ss = !decide (s.vacated = s.root)

section Recursion

variable {A : Shape oramSize} {width bound : Nat} (hroom : Room A width bound) (hfits : bound ≤ 2 ^ 31)
  {mem : Nodes} (hzero : mem.holds 0 = 0) {del_key : Value}
include hroom hfits

/-- A node above which nothing is to be repaired is left as it is. -/
theorem delBack_idle {ptr w : Value} {d : Bool} {ret : DelReturn} (hret : ret.ret_ptr.toNat < bound)
    (hF_r : ret.F_r = false) (hptr : ptr.toNat < bound) (hold : mem.pointers ptr.toNat = w)
    (hcs : (link (!d) w).toNat < bound)
    (hgcs : ∀ e, (link e (mem.pointers (link (!d) w).toNat)).toNat < bound) (F_rs OPTIMIZED : Bool) :
    delBack OPTIMIZED A width mem ptr w d F_rs false ret =
      ((true, F_rs), mem, { ret with F_r := F_rs, ret_ptr := select F_rs ptr ret.ret_ptr }) := by
  rw [delBack_quiet hroom hfits hret hptr hold hcs hgcs (updateBalanceDel_false _ _ d), hF_r, select_false,
    setLink_link, ← getLeftBal_eq_bal, ← getRightBal_eq_bal, setBals_self, setPointers_self hold]
  cases F_rs <;> rfl

include hzero

/-- Below the node that is taken out the recursion reaches a leaf, and only counts down. -/
theorem delRec_below (hbound : 0 < bound) (TTL : Nat) : ∀ {t : LinkedTree} {ptr : Value},
    AvlAt bound mem ptr t → t.height ≤ 1 → t.height ≤ TTL → ∀ {ret : DelReturn}, ret.F_r = false →
      ret.ret_ptr = 0 → ∀ OPTIMIZED, delRec OPTIMIZED A width del_key TTL ptr true false (mem, ret) =
        ((true, false), mem, { ret with ret_ptr := ptr }) := by
  induction TTL with
  | zero =>
      intro t ptr h _ hTTL ret _ hret _
      have hroot := h.root
      rw [LinkedTree.height_eq_zero.1 (Nat.le_zero.1 hTTL)] at hroot
      obtain rfl : ptr = 0 := BitVec.eq_of_toNat_eq hroot
      rw [← hret]
      rfl
  | succ TTL ih =>
      intro t ptr h hlow _ ret hF_r hret OPTIMIZED
      have hpointers : mem.pointers 0 = 0 := congrArg Node.pointers hzero
      have hptr : ptr.toNat < bound := h.root ▸ root_inside hbound h.inside
      have hlinks : ∀ e, link e (mem.pointers ptr.toNat) = 0 := by
        intro e
        by_cases hne : t = .nil
        · rw [h.root, hne, LinkedTree.root_nil, hpointers, link_zero]
        · obtain ⟨x, y, ht⟩ := LinkedTree.exists_branch hne e
          rw [← h.root] at ht
          rw [ht, LinkedTree.height_branch] at hlow
          rw [ht] at h
          have hx := h.near.root
          rw [LinkedTree.height_eq_zero.1 (show x.height = 0 by omega)] at hx
          exact BitVec.eq_of_toNat_eq hx
      have hnil : AvlAt bound mem 0 .nil := ⟨rfl, .nil, by simp, List.nodup_nil⟩
      have hF : delFlags (decide (link false (mem.pointers ptr.toNat) = 0))
          (decide (link true (mem.pointers ptr.toNat) = 0)) (found mem del_key ptr.toNat)
          (goRight mem del_key ptr.toNat) true false =
            ⟨false, false, false, false, goRight mem del_key ptr.toNat, true, false⟩ := by
        rw [hlinks, hlinks]
        exact delFlags_below _ _
      have hrec := ih hnil (Nat.zero_le _) (Nat.zero_le _) hF_r hret OPTIMIZED
      have hsame : delDown ptr ⟨false, false, false, false, goRight mem del_key ptr.toNat, true, false⟩ ret =
          ret := by
        simp [delDown]
      rw [delRec_return hroom hptr rfl hF (by rw [hsame, hlinks]; exact hrec)]
      have hidle := @delBack_idle _ _ _ _ hroom hfits mem ptr (mem.pointers ptr.toNat)
        (goRight mem del_key ptr.toNat) { ret with ret_ptr := 0 } hbound hF_r hptr rfl
        (by rw [hlinks]; exact hbound) (fun e => by
          rw [hlinks, show (0 : Value).toNat = 0 from rfl, hpointers, link_zero]; exact hbound) false OPTIMIZED
      rw [hidle, hF_r]
      rfl

/-- The node that is taken out has at most one child, which takes its place. -/
theorem delRec_skip {TTL : Nat} {ptr : Value} {d : Bool} {x : LinkedTree}
    (h : AvlAt bound mem ptr (branch d ptr.toNat x .nil)) (hTTL : x.height ≤ TTL)
    {found find_successor F_dh F_sf : Bool}
    (hF : delFlags (decide (link false (mem.pointers ptr.toNat) = 0))
      (decide (link true (mem.pointers ptr.toNat) = 0)) (AVL.found mem del_key ptr.toNat)
      (goRight mem del_key ptr.toNat) found find_successor = ⟨F_dh, true, false, F_sf, d, true, false⟩)
    {ret : DelReturn} (hF_r : ret.F_r = false) (hret : ret.ret_ptr = 0) : ∃ ret',
      (∀ OPTIMIZED, delRec OPTIMIZED A width del_key (TTL + 1) ptr found find_successor (mem, ret) =
        ((true, true), mem, ret')) ∧
      Shrunk bound mem (branch d ptr.toNat x .nil) x ptr true ret' True ∧
      SameNodes (delDown ptr ⟨F_dh, true, false, F_sf, d, true, false⟩ ret) ret' := by
  have hptr : ptr.toNat < bound := h.inside _ (LinkedTree.mem_branch.2 (.inl rfl))
  have hbound := Nat.zero_lt_of_lt hptr
  have hpointers : mem.pointers 0 = 0 := congrArg Node.pointers hzero
  obtain ⟨_, _, hfar, hlow, _⟩ := LinkedTree.Avl.branch_iff.1 h.avl
  have hfar : link (!d) (mem.pointers ptr.toNat) = 0 := BitVec.eq_of_toNat_eq hfar
  have hnear : (link d (mem.pointers ptr.toNat)).toNat < bound :=
    h.near.root ▸ root_inside hbound h.near.inside
  have hrec := @delRec_below _ _ _ _ hroom hfits _ hzero del_key hbound TTL x _ h.near hlow hTTL
    (delDown ptr ⟨F_dh, true, false, F_sf, d, true, false⟩ ret) hF_r hret
  have hback OPTIMIZED := @delBack_idle _ _ _ _ hroom hfits mem ptr (mem.pointers ptr.toNat) d
    { delDown ptr ⟨F_dh, true, false, F_sf, d, true, false⟩ ret with
      ret_ptr := link d (mem.pointers ptr.toNat) } hnear hF_r hptr rfl (by rw [hfar]; exact hbound)
    (fun e => by rw [hfar, show (0 : Value).toNat = 0 from rfl, hpointers, link_zero]; exact hbound) true
    OPTIMIZED
  refine ⟨_, fun OPTIMIZED => (delRec_return hroom hptr rfl hF (hrec OPTIMIZED)).trans (hback OPTIMIZED),
    ?_, ⟨rfl, rfl, rfl⟩⟩
  · refine ⟨h.near.root, hnear, h.near.avl.avlIff, ?_, ?_⟩
    · rw [LinkedTree.height_branch]
      simp
    · cases d with
      | false => exact List.sublist_append_left _ _
      | true => exact (List.Sublist.refl _).cons _

/-- **The search for the successor** takes out the leftmost node. -/
theorem delRec_successor (TTL : Nat) : ∀ {t : LinkedTree} {ptr : Value}, AvlAt bound mem ptr t → t ≠ .nil →
    t.height ≤ TTL → (∀ a ∈ t.toList, goRight mem del_key a = false) → ∀ {ret : DelReturn},
      ret.F_r = false → ret.ret_ptr = 0 → ret.F_ss = true → ∃ mem' bal_upd ret',
        (∀ OPTIMIZED, delRec OPTIMIZED A width del_key TTL ptr true true (mem, ret) =
          ((true, bal_upd), mem', ret')) ∧
        OnlyLinks mem mem' t.toList ∧ Shrunk bound mem' t t.eraseMin ptr bal_upd ret' (¬ t.CrossesMin) ∧
        ret'.F_ss = true ∧ ret'.N_d = ret.N_d ∧ ret'.N_s.toNat = t.minAddr := by
  induction TTL with
  | zero =>
      intro t ptr _ hne hTTL
      exact absurd (LinkedTree.height_eq_zero.1 (Nat.le_zero.1 hTTL)) hne
  | succ TTL ih =>
      intro t ptr h hne hTTL hdir ret hF_r hret hss
      have hpointers : mem.pointers 0 = 0 := congrArg Node.pointers hzero
      obtain ⟨l, r, ht⟩ := LinkedTree.exists_branch hne false
      rw [← h.root] at ht
      subst ht
      have hptr : ptr.toNat < bound := h.inside _ (LinkedTree.mem_branch.2 (.inl rfl))
      have hgt : goRight mem del_key ptr.toNat = false := hdir _ (LinkedTree.mem_branch.2 (.inl rfl))
      have hleft := link_eq_zero h.near.root h.near.avl
      by_cases hl : l = .nil
      · subst hl
        have h' := h
        rw [← LinkedTree.branch_not] at h'
        have hF : delFlags (decide (link false (mem.pointers ptr.toNat) = 0))
            (decide (link true (mem.pointers ptr.toNat) = 0)) (found mem del_key ptr.toNat)
            (goRight mem del_key ptr.toNat) true true = ⟨false, true, false, true, true, true, false⟩ := by
          rw [decide_eq_true (hleft.2 rfl), hgt]
          exact delFlags_successor _ _
        rw [LinkedTree.height_branch, LinkedTree.height_nil, Nat.zero_max] at hTTL
        obtain ⟨ret', hrec, hshrunk, hsame⟩ := delRec_skip hroom hfits hzero h' (Nat.le_of_succ_le_succ hTTL)
          hF hF_r hret
        rw [LinkedTree.branch_not] at hshrunk
        refine ⟨mem, true, ret', hrec, OnlyLinks.refl _ _, hshrunk.of_iff ?_, ?_, hsame.N_d, ?_⟩
        · exact iff_of_true trivial fun hcrosses => hcrosses.1 rfl
        · rw [hsame.F_ss]
          simp [delDown, hss]
        · rw [hsame.N_s]
          rfl
      · have hF : delFlags (decide (link false (mem.pointers ptr.toNat) = 0))
            (decide (link true (mem.pointers ptr.toNat) = 0)) (found mem del_key ptr.toNat)
            (goRight mem del_key ptr.toNat) true true = ⟨false, false, found mem del_key ptr.toNat &&
              !decide (link true (mem.pointers ptr.toNat) = 0), false, false, true, true⟩ := by
          rw [decide_eq_false (fun h0 => hl (hleft.1 h0)), hgt]
          exact delFlags_left _ _
        have hsame : delDown ptr ⟨false, false, found mem del_key ptr.toNat &&
            !decide (link true (mem.pointers ptr.toNat) = 0), false, false, true, true⟩ ret = ret := by
          obtain ⟨F_ss, N_d, N_s, F_r, ret_ptr⟩ := ret
          obtain rfl : F_ss = true := hss
          simp [delDown]
        obtain ⟨mem', bal_upd, ret', hrec, honly, hshrunk, hss', hNd, hNs⟩ := ih h.near hl
          (by rw [LinkedTree.height_branch] at hTTL; omega)
          (fun a ha => hdir a (LinkedTree.mem_branch.2 (.inr (.inl ha)))) hF_r hret hss
        obtain ⟨mem'', bal_upd', ret'', hback, honly', hshrunk', hsame'⟩ :=
          delBack_spec hroom hfits h honly hpointers hshrunk
        refine ⟨mem'', bal_upd', ret'', fun OPTIMIZED => ?_, honly', ?_, hsame'.F_ss.trans hss',
          hsame'.N_d.trans hNd, ?_⟩
        · refine (delRec_return hroom hptr rfl hF ?_).trans (hback OPTIMIZED)
          rw [hsame]
          exact hrec OPTIMIZED
        · rw [LinkedTree.eraseMin_left hl]
          exact hshrunk'.of_iff (by rw [LinkedTree.crossesMin_left hl, not_or])
        · rw [hsame'.N_s, hNs]
          exact (LinkedTree.minAddr_node hl).symm

/-- The node with the key, with at most one child: it is taken out. -/
theorem delRec_one {TTL : Nat} {ptr : Value} {d : Bool} {x : LinkedTree}
    (h : AvlAt bound mem ptr (branch d ptr.toNat x .nil)) (hTTL : x.height ≤ TTL)
    (hhere : found mem del_key ptr.toNat = true) (hd : d = !decide (link true (mem.pointers ptr.toNat) = 0))
    (hone : link false (mem.pointers ptr.toNat) = 0 ∨ link true (mem.pointers ptr.toNat) = 0) :
    ∃ ret', (∀ OPTIMIZED, delRec OPTIMIZED A width del_key (TTL + 1) ptr false false (mem, .init) =
        ((true, true), mem, ret')) ∧
      Shrunk bound mem (branch d ptr.toNat x .nil) (branch d ptr.toNat x .nil).eraseRoot ptr true ret'
        (¬ (branch d ptr.toNat x .nil).CrossesRoot) ∧
      Located (branch d ptr.toNat x .nil) ret' := by
  have hF : delFlags (decide (link false (mem.pointers ptr.toNat) = 0))
      (decide (link true (mem.pointers ptr.toNat) = 0)) (found mem del_key ptr.toNat)
      (goRight mem del_key ptr.toNat) false false = ⟨true, true, false, false, d, true, false⟩ := by
    rw [hhere, goRight_of_found hhere, hd]
    exact delFlags_one (hone.imp decide_eq_true decide_eq_true)
  obtain ⟨ret', hrec, hshrunk, hsame⟩ := @delRec_skip _ _ _ _ hroom hfits _ hzero _ _ _ _ _ h hTTL _ _ _ _ hF
    .init rfl rfl
  have hss : ret'.F_ss = false := hsame.F_ss
  have hNd : ret'.N_d = ptr := hsame.N_d
  have hNs : ret'.N_s = 0 := hsame.N_s
  refine ⟨ret', hrec, ?_, ⟨?_, ?_, ?_⟩⟩
  · rw [LinkedTree.eraseRoot_one]
    exact hshrunk.of_iff (iff_of_true trivial (LinkedTree.not_crossesRoot_one d _ x))
  · rw [hNd, LinkedTree.root_branch]
  · rw [hNs, hss]
    rfl
  · rw [LinkedTree.vacated_one, LinkedTree.root_branch, hss, decide_eq_true rfl, Bool.not_true]

/-- The node with the key, with two children: the successor is taken out. -/
theorem delRec_two {TTL : Nat} {ptr : Value} {l r : LinkedTree}
    (h : AvlAt bound mem ptr (branch true ptr.toNat r l)) (hl : l ≠ .nil) (hr : r ≠ .nil)
    (hTTL : r.height ≤ TTL) (hhere : found mem del_key ptr.toNat = true)
    (hdir : ∀ a ∈ r.toList, goRight mem del_key a = false) :
    ∃ mem' bal_upd ret', (∀ OPTIMIZED,
        delRec OPTIMIZED A width del_key (TTL + 1) ptr false false (mem, .init) =
          ((true, bal_upd), mem', ret')) ∧
      OnlyLinks mem mem' (branch true ptr.toNat r l).toList ∧
      Shrunk bound mem' (branch true ptr.toNat r l) (branch true ptr.toNat r l).eraseRoot ptr bal_upd ret'
        (¬ (branch true ptr.toNat r l).CrossesRoot) ∧
      Located (branch true ptr.toNat r l) ret' := by
  have hpointers : mem.pointers 0 = 0 := congrArg Node.pointers hzero
  have hptr : ptr.toNat < bound := h.inside _ (LinkedTree.mem_branch.2 (.inl rfl))
  have hF : delFlags (decide (link false (mem.pointers ptr.toNat) = 0))
      (decide (link true (mem.pointers ptr.toNat) = 0)) (found mem del_key ptr.toNat)
      (goRight mem del_key ptr.toNat) false false = ⟨true, false, true, false, true, true, true⟩ := by
    have hl0 : link false (mem.pointers ptr.toNat) ≠ 0 := fun h0 =>
      hl ((link_eq_zero h.far.root h.far.avl).1 h0)
    have hr0 : link true (mem.pointers ptr.toNat) ≠ 0 := fun h0 =>
      hr ((link_eq_zero h.near.root h.near.avl).1 h0)
    rw [hhere, goRight_of_found hhere, decide_eq_false hl0, decide_eq_false hr0]
    exact delFlags_two
  obtain ⟨mem', bal_upd, ret', hrec, honly, hshrunk, hss, hNd, hNs⟩ := @delRec_successor _ _ _ _ hroom hfits _
    hzero del_key TTL r _ h.near hr hTTL hdir
      (delDown ptr ⟨true, false, true, false, true, true, true⟩ .init) rfl rfl rfl
  obtain ⟨mem'', bal_upd', ret'', hback, honly', hshrunk', hsame⟩ :=
    delBack_spec hroom hfits h honly hpointers hshrunk
  refine ⟨mem'', bal_upd', ret'', fun OPTIMIZED => ?_, honly', ?_, ⟨?_, ?_, ?_⟩⟩
  · exact (delRec_return hroom hptr rfl hF (hrec OPTIMIZED)).trans (hback OPTIMIZED)
  · rw [LinkedTree.eraseRoot_two hl hr]
    exact hshrunk'.of_iff (by rw [LinkedTree.crossesRoot_two hl hr, not_or])
  · rw [hsame.N_d, hNd, LinkedTree.root_branch]
    rfl
  · rw [hsame.F_ss, hss, if_pos rfl, LinkedTree.vacated_two hl hr, hsame.N_s, hNs]
  · have hnot := (LinkedTree.nodup_branch.1 h.nodup).1
    have hne : r.minAddr ≠ ptr.toNat := fun heq => hnot (heq ▸ LinkedTree.minAddr_mem hr)
    rw [LinkedTree.vacated_two hl hr, LinkedTree.root_branch, hsame.F_ss, hss, decide_eq_false hne,
      Bool.not_false]

/-- **The search for the key** takes out the first node of its path that has the key, or the successor if
that node has two children. -/
theorem delRec_found (TTL : Nat) : ∀ {t : LinkedTree} {ptr : Value}, AvlAt bound mem ptr t →
    t.find (found mem del_key) (goRight mem del_key) ≠ .nil → t.height ≤ TTL →
      t.Ordered (· ≤ ·) (BST.keyOf mem) → (∀ a ∈ t.toList, BST.keyOf mem a < 2 ^ 63) →
      ∃ mem' bal_upd ret', (∀ OPTIMIZED, delRec OPTIMIZED A width del_key TTL ptr false false (mem, .init) =
          ((true, bal_upd), mem', ret')) ∧
        OnlyLinks mem mem' t.toList ∧
        Shrunk bound mem' t (t.erase (found mem del_key) (goRight mem del_key)) ptr bal_upd ret'
          (¬ t.Crosses (found mem del_key) (goRight mem del_key)) ∧
        Located (t.find (found mem del_key) (goRight mem del_key)) ret' := by
  induction TTL with
  | zero =>
      intro t ptr _ hfind hTTL
      rw [LinkedTree.height_eq_zero.1 (Nat.le_zero.1 hTTL)] at hfind
      exact absurd rfl hfind
  | succ TTL ih =>
      intro t ptr h hfind hTTL hord hkeys
      have hpointers : mem.pointers 0 = 0 := congrArg Node.pointers hzero
      have hne : t ≠ .nil := by
        rintro rfl
        exact hfind rfl
      cases hhere : found mem del_key t.root with
      | true =>
          rw [LinkedTree.find_here hhere, LinkedTree.erase_here hhere, LinkedTree.crosses_here hhere]
          obtain ⟨r, l, ht⟩ := LinkedTree.exists_branch hne true
          rw [← h.root] at ht hhere
          subst ht
          have hleft := link_eq_zero h.far.root h.far.avl
          have hright := link_eq_zero h.near.root h.near.avl
          have hr_height : r.height ≤ TTL := by
            rw [LinkedTree.height_branch] at hTTL
            omega
          by_cases hr : r = .nil
          · subst hr
            have h' := h
            rw [← LinkedTree.branch_not] at h' ⊢
            have hl_height : l.height ≤ TTL := by
              rw [LinkedTree.height_branch] at hTTL
              omega
            obtain ⟨ret', hrec, hshrunk, hlocated⟩ := delRec_one hroom hfits hzero h' hl_height hhere
              (by rw [decide_eq_true (hright.2 rfl), Bool.not_true]) (.inr (hright.2 rfl))
            exact ⟨mem, true, ret', hrec, OnlyLinks.refl _ _, hshrunk, hlocated⟩
          · by_cases hl : l = .nil
            · subst hl
              obtain ⟨ret', hrec, hshrunk, hlocated⟩ := delRec_one hroom hfits hzero h hr_height hhere
                (by rw [decide_eq_false fun h0 => hr (hright.1 h0), Bool.not_false]) (.inl (hleft.2 rfl))
              exact ⟨mem, true, ret', hrec, OnlyLinks.refl _ _, hshrunk, hlocated⟩
            · exact delRec_two hroom hfits hzero h hl hr hr_height hhere
                (goRight_above hord hkeys hhere)
      | false =>
          obtain ⟨d, hd⟩ : ∃ d, goRight mem del_key t.root = d := ⟨_, rfl⟩
          obtain ⟨x, y, ht⟩ := LinkedTree.exists_branch hne d
          rw [← h.root] at ht hhere hd
          subst ht
          rw [LinkedTree.find_branch hhere hd] at hfind ⊢
          rw [LinkedTree.erase_branch hhere hd, LinkedTree.crosses_branch hhere hd]
          have hptr : ptr.toNat < bound := h.inside _ (LinkedTree.mem_branch.2 (.inl rfl))
          have hF : delFlags (decide (link false (mem.pointers ptr.toNat) = 0))
              (decide (link true (mem.pointers ptr.toNat) = 0)) (found mem del_key ptr.toNat)
              (goRight mem del_key ptr.toNat) false false = ⟨false, false, false, false, d, false, false⟩ := by
            rw [hhere, hd]
            exact delFlags_pass _ _ _
          obtain ⟨mem', bal_upd, ret', hrec, honly, hshrunk, hlocated⟩ := ih h.near hfind
            (by rw [LinkedTree.height_branch] at hTTL; omega) (ordered_branch hord)
            (fun a ha => hkeys a (LinkedTree.mem_branch.2 (.inr (.inl ha))))
          obtain ⟨mem'', bal_upd', ret'', hback, honly', hshrunk', hsame⟩ :=
            delBack_spec hroom hfits h honly hpointers hshrunk
          refine ⟨mem'', bal_upd', ret'', fun OPTIMIZED => ?_, honly', hshrunk'.of_iff not_or.symm,
    ⟨?_, ?_, ?_⟩⟩
          · exact (delRec_return hroom hptr rfl hF (hrec OPTIMIZED)).trans (hback OPTIMIZED)
          · rw [hsame.N_d, hlocated.N_d]
          · rw [hsame.N_s, hsame.F_ss, hlocated.N_s]
          · rw [hsame.F_ss, hlocated.F_ss]

end Recursion

end AVL

end Prac
