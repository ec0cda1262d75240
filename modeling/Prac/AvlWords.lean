import Prac.Avl

/-!
# Words of links and balance bits

* `AVL.link`, `AVL.bal` — the link and the balance bit of a direction, `true` for the right, with
  `setLink` and `setBal`; `AVL.word_ext` — a word is its two links and its two bits.
* `AVL.rotate_false`, `AVL.rotate_true` — `rotate` turned off, and on.
* `AVL.updateBalanceIns_true`, `AVL.updateBalanceDel_true` — the balance bits above a child that has
  grown, or shrunk.
-/

namespace Prac

/-! ## Bits of a word -/

theorem getLsbD_getAVLLeftPtr (w : Value) (i : Nat) :
    (getAVLLeftPtr w).getLsbD i = w.getLsbD (33 + i) := by
  unfold getAVLLeftPtr
  rw [BitVec.getLsbD_ushiftRight]

theorem getLsbD_getAVLRightPtr (w : Value) (i : Nat) :
    (getAVLRightPtr w).getLsbD i = (decide (i < 31) && w.getLsbD (2 + i)) := by
  have hmask : ∀ i < 64, (0x00000001FFFFFFFC : Value).getLsbD i = decide (2 ≤ i ∧ i < 33) := by decide
  unfold getAVLRightPtr
  rw [BitVec.getLsbD_ushiftRight, BitVec.getLsbD_and]
  by_cases h : 2 + i < 64
  · rw [hmask _ h, Bool.and_comm]
    congr 1
    rw [decide_eq_decide]
    omega
  · rw [BitVec.getLsbD_of_ge w _ (by omega), Bool.false_and, Bool.and_false]

theorem getLsbD_setAVLLeftPtr (w l : Value) {i : Nat} (hi : i < 64) :
    (setAVLLeftPtr w l).getLsbD i = if i < 33 then w.getLsbD i else l.getLsbD (i - 33) := by
  have hmask : ∀ i < 64, (0x00000001FFFFFFFF : Value).getLsbD i = decide (i < 33) := by decide
  unfold setAVLLeftPtr
  rw [BitVec.getLsbD_xor, BitVec.getLsbD_and, BitVec.getLsbD_shiftLeft, hmask i hi]
  by_cases hlt : i < 33
  · simp [hlt]
  · simp [hlt, hi]

theorem getLsbD_setAVLRightPtr (w : Value) {r : Value} (hr : r.toNat < 2 ^ 31) {i : Nat} (hi : i < 64) :
    (setAVLRightPtr w r).getLsbD i = if 2 ≤ i ∧ i < 33 then r.getLsbD (i - 2) else w.getLsbD i := by
  have hmask : ∀ i < 64, (0xFFFFFFFE00000003 : Value).getLsbD i = decide (¬ (2 ≤ i ∧ i < 33)) := by
    decide
  unfold setAVLRightPtr
  rw [BitVec.getLsbD_xor, BitVec.getLsbD_and, BitVec.getLsbD_shiftLeft, hmask i hi]
  by_cases hlow : i < 2
  · simp [hlow, show ¬ 2 ≤ i by omega]
  · by_cases hlt : i < 33
    · simp [hlow, hlt, hi, show 2 ≤ i by omega]
    · have hri : r.getLsbD (i - 2) = false := by
        rw [← BitVec.testBit_toNat]
        exact Nat.testBit_lt_two_pow (lt_of_lt_of_le hr (Nat.pow_le_pow_right Nat.two_pos (by omega)))
      simp [hlow, hlt, hi, hri]

theorem getLeftBal_eq (w : Value) : getLeftBal w = w.getLsbD 1 := by
  have hmask : ∀ i < 64, (0x0000000000000002 : Value).getLsbD i = decide (i = 1) := by decide
  have hbit : ∀ i < 64, ((w &&& (0x0000000000000002 : Value)) >>> 1).getLsbD i =
      (decide (i = 0) && w.getLsbD 1) := by
    intro i hi
    rw [BitVec.getLsbD_ushiftRight, BitVec.getLsbD_and]
    by_cases h0 : i = 0
    · simp [h0]
    · by_cases hlt : 1 + i < 64
      · rw [hmask _ hlt, decide_eq_false (by omega), decide_eq_false h0, Bool.and_false, Bool.false_and]
      · rw [BitVec.getLsbD_of_ge w _ (by omega), decide_eq_false h0, Bool.false_and, Bool.false_and]
  unfold getLeftBal
  cases hw : w.getLsbD 1 with
  | false =>
      rw [decide_eq_false_iff_not, not_not]
      apply BitVec.eq_of_getLsbD_eq
      intro i hi
      rw [hbit i hi, hw, Bool.and_false]
      exact BitVec.getLsbD_zero.symm
  | true =>
      rw [decide_eq_true_eq]
      intro hzero
      have h0 := hbit 0 (by omega)
      rw [hzero, hw] at h0
      simp at h0

theorem getRightBal_eq (w : Value) : getRightBal w = w.getLsbD 0 := by
  have hmask : ∀ i < 64, (0x0000000000000001 : Value).getLsbD i = decide (i = 0) := by decide
  unfold getRightBal
  cases hw : w.getLsbD 0 with
  | false =>
      rw [decide_eq_false_iff_not, not_not]
      apply BitVec.eq_of_getLsbD_eq
      intro i hi
      rw [BitVec.getLsbD_and, hmask i hi]
      by_cases h0 : i = 0
      · rw [h0, hw, Bool.false_and]
        exact BitVec.getLsbD_zero.symm
      · rw [decide_eq_false h0, Bool.and_false]
        exact BitVec.getLsbD_zero.symm
  | true =>
      rw [decide_eq_true_eq]
      intro hzero
      have h0 := BitVec.getLsbD_and (x := w) (y := (0x0000000000000001 : Value)) (i := 0)
      rw [hzero, hw] at h0
      simp at h0

theorem getLsbD_setLeftBal (w : Value) (b : Bool) {i : Nat} (hi : i < 64) :
    (setLeftBal w b).getLsbD i = if i = 1 then b else w.getLsbD i := by
  have hmask : ∀ i < 64, (0xFFFFFFFFFFFFFFFD : Value).getLsbD i = decide (i ≠ 1) := by decide
  have hbit : ∀ b : Bool, ∀ i < 64, (BitVec.ofNat 64 b.toNat <<< 1).getLsbD i = (decide (i = 1) && b) := by
    decide
  unfold setLeftBal
  rw [BitVec.getLsbD_xor, BitVec.getLsbD_and, hmask i hi, hbit b i hi]
  by_cases h1 : i = 1
  · simp [h1]
  · simp [h1]

theorem getLsbD_setRightBal (w : Value) (b : Bool) {i : Nat} (hi : i < 64) :
    (setRightBal w b).getLsbD i = if i = 0 then b else w.getLsbD i := by
  have hmask : ∀ i < 64, (0xFFFFFFFFFFFFFFFE : Value).getLsbD i = decide (i ≠ 0) := by decide
  have hbit : ∀ b : Bool, ∀ i < 64, (BitVec.ofNat 64 b.toNat).getLsbD i = (decide (i = 0) && b) := by
    decide
  unfold setRightBal
  rw [BitVec.getLsbD_xor, BitVec.getLsbD_and, hmask i hi, hbit b i hi]
  by_cases h0 : i = 0
  · simp [h0]
  · simp [h0]

@[simp] theorem select_false {α : Type*} (x y : α) : select false x y = x := rfl
@[simp] theorem select_true {α : Type*} (x y : α) : select true x y = y := rfl

namespace AVL

/-! ## Directions -/

/-- The link of a direction. -/
def link (d : Bool) (w : Value) : Value := select d (getAVLLeftPtr w) (getAVLRightPtr w)

/-- The balance bit of a direction. -/
def bal (d : Bool) (w : Value) : Bool := select d (getLeftBal w) (getRightBal w)

/-- `setAVLLeftPtr` or `setAVLRightPtr`. -/
def setLink (d : Bool) (w p : Value) : Value := select d (setAVLLeftPtr w p) (setAVLRightPtr w p)

/-- `setLeftBal` or `setRightBal`. -/
def setBal (d : Bool) (w : Value) (b : Bool) : Value := select d (setLeftBal w b) (setRightBal w b)

theorem getAVLLeftPtr_eq_link (w : Value) : getAVLLeftPtr w = link false w := rfl
theorem getAVLRightPtr_eq_link (w : Value) : getAVLRightPtr w = link true w := rfl
theorem getLeftBal_eq_bal (w : Value) : getLeftBal w = bal false w := rfl
theorem getRightBal_eq_bal (w : Value) : getRightBal w = bal true w := rfl

theorem link_lt (d : Bool) (w : Value) : (link d w).toNat < 2 ^ 31 := by
  refine Nat.lt_pow_two_of_testBit _ fun i hi => ?_
  rw [BitVec.testBit_toNat]
  cases d with
  | false =>
      rw [← getAVLLeftPtr_eq_link, getLsbD_getAVLLeftPtr]
      exact BitVec.getLsbD_of_ge w _ (by omega)
  | true =>
      rw [← getAVLRightPtr_eq_link, getLsbD_getAVLRightPtr, decide_eq_false (by omega), Bool.false_and]

@[simp] theorem link_setLink {d d' : Bool} {w p : Value} (hp : p.toNat < 2 ^ 31) :
    link d (setLink d' w p) = if d = d' then p else link d w := by
  have hhigh : ∀ i, 31 ≤ i → p.getLsbD i = false := by
    intro i hi
    rw [← BitVec.testBit_toNat]
    exact Nat.testBit_lt_two_pow (lt_of_lt_of_le hp (Nat.pow_le_pow_right Nat.two_pos hi))
  apply BitVec.eq_of_getLsbD_eq
  intro i hi
  cases d with
  | false =>
      rw [← getAVLLeftPtr_eq_link, ← getAVLLeftPtr_eq_link, getLsbD_getAVLLeftPtr]
      by_cases hlt : i < 31
      · cases d' with
        | false => simp [setLink, select, getLsbD_setAVLLeftPtr w p (show 33 + i < 64 by omega)]
        | true =>
            simp [setLink, select, getLsbD_setAVLRightPtr w hp (show 33 + i < 64 by omega),
              getLsbD_getAVLLeftPtr]
      · rw [BitVec.getLsbD_of_ge _ _ (by omega)]
        cases d' with
        | false => simp [hhigh i (by omega)]
        | true => simp [getLsbD_getAVLLeftPtr, BitVec.getLsbD_of_ge w (33 + i) (by omega)]
  | true =>
      rw [← getAVLRightPtr_eq_link, ← getAVLRightPtr_eq_link, getLsbD_getAVLRightPtr]
      by_cases hlt : i < 31
      · cases d' with
        | false =>
            simp [setLink, select, getLsbD_setAVLLeftPtr w p (show 2 + i < 64 by omega),
              getLsbD_getAVLRightPtr, hlt, show 2 + i < 33 by omega]
        | true =>
            simp [setLink, select, getLsbD_setAVLRightPtr w hp (show 2 + i < 64 by omega), hlt,
              show 2 + i < 33 by omega]
      · cases d' with
        | false => simp [hlt, getLsbD_getAVLRightPtr]
        | true => simp [hlt, hhigh i (by omega)]

@[simp] theorem bal_setLink {d d' : Bool} {w p : Value} (hp : p.toNat < 2 ^ 31) :
    bal d (setLink d' w p) = bal d w := by
  have hlow : ∀ i < 2, (setLink d' w p).getLsbD i = w.getLsbD i := by
    intro i hi
    cases d' with
    | false => exact (getLsbD_setAVLLeftPtr w p (by omega)).trans (if_pos (by omega))
    | true => exact (getLsbD_setAVLRightPtr w hp (by omega)).trans (if_neg (by omega))
  cases d with
  | false =>
      rw [← getLeftBal_eq_bal, ← getLeftBal_eq_bal, getLeftBal_eq, getLeftBal_eq]
      exact hlow 1 (by omega)
  | true =>
      rw [← getRightBal_eq_bal, ← getRightBal_eq_bal, getRightBal_eq, getRightBal_eq]
      exact hlow 0 (by omega)

@[simp] theorem link_setBal {d d' : Bool} {w : Value} {b : Bool} : link d (setBal d' w b) = link d w := by
  have hhigh : ∀ i, 2 ≤ i → (setBal d' w b).getLsbD i = w.getLsbD i := by
    intro i hi
    by_cases hlt : i < 64
    · cases d' with
      | false => exact (getLsbD_setLeftBal w b hlt).trans (if_neg (by omega))
      | true => exact (getLsbD_setRightBal w b hlt).trans (if_neg (by omega))
    · rw [BitVec.getLsbD_of_ge _ _ (by omega), BitVec.getLsbD_of_ge _ _ (by omega)]
  apply BitVec.eq_of_getLsbD_eq
  intro i hi
  cases d with
  | false =>
      rw [← getAVLLeftPtr_eq_link, ← getAVLLeftPtr_eq_link, getLsbD_getAVLLeftPtr,
        getLsbD_getAVLLeftPtr, hhigh _ (by omega)]
  | true =>
      rw [← getAVLRightPtr_eq_link, ← getAVLRightPtr_eq_link, getLsbD_getAVLRightPtr,
        getLsbD_getAVLRightPtr, hhigh _ (by omega)]

@[simp] theorem bal_setBal {d d' : Bool} {w : Value} {b : Bool} :
    bal d (setBal d' w b) = if d = d' then b else bal d w := by
  cases d with
  | false =>
      rw [← getLeftBal_eq_bal, ← getLeftBal_eq_bal, getLeftBal_eq, getLeftBal_eq]
      cases d' with
      | false => exact getLsbD_setLeftBal w b (by omega)
      | true => exact (getLsbD_setRightBal w b (by omega)).trans (if_neg (by omega))
  | true =>
      rw [← getRightBal_eq_bal, ← getRightBal_eq_bal, getRightBal_eq, getRightBal_eq]
      cases d' with
      | false => exact (getLsbD_setLeftBal w b (by omega)).trans (if_neg (by omega))
      | true => exact getLsbD_setRightBal w b (by omega)

/-- A word is its links and its balance bits. -/
theorem word_ext {w w' : Value} (hlink : ∀ d, link d w = link d w') (hbal : ∀ d, bal d w = bal d w') :
    w = w' := by
  apply BitVec.eq_of_getLsbD_eq
  intro i hi
  rcases Nat.lt_or_ge i 2 with hlow | hhigh
  · rcases (by omega : i = 0 ∨ i = 1) with rfl | rfl
    · rw [← getRightBal_eq, ← getRightBal_eq]
      exact hbal true
    · rw [← getLeftBal_eq, ← getLeftBal_eq]
      exact hbal false
  · rcases Nat.lt_or_ge i 33 with hright | hleft
    · have h := congrArg (fun v => v.getLsbD (i - 2)) (hlink true)
      simp only [← getAVLRightPtr_eq_link, getLsbD_getAVLRightPtr, decide_eq_true (show i - 2 < 31 by omega),
        Bool.true_and] at h
      rwa [Nat.add_sub_cancel' hhigh] at h
    · have h := congrArg (fun v => v.getLsbD (i - 33)) (hlink false)
      simp only [← getAVLLeftPtr_eq_link, getLsbD_getAVLLeftPtr] at h
      rwa [Nat.add_sub_cancel' hleft] at h

theorem setLink_link (d : Bool) (w : Value) : setLink d w (link d w) = w := by
  refine word_ext (fun d' => ?_) fun d' => bal_setLink (link_lt d w)
  rw [link_setLink (link_lt d w)]
  split
  · rename_i h
    rw [h]
  · rfl

theorem setBal_bal (d : Bool) (w : Value) : setBal d w (bal d w) = w := by
  refine word_ext (fun d' => link_setBal) fun d' => ?_
  rw [bal_setBal]
  split
  · rename_i h
    rw [h]
  · rfl

/-- Both links are set, and one of them to what it was. -/
theorem setLinks_left {w p : Value} (hp : p.toNat < 2 ^ 31) :
    setAVLRightPtr (setAVLLeftPtr w p) (getAVLRightPtr w) = setLink false w p := by
  have hright : getAVLRightPtr w = link true (setLink false w p) := by
    rw [link_setLink hp, if_neg (by simp)]
    rfl
  rw [hright]
  exact setLink_link true _

theorem setLinks_right (w p : Value) :
    setAVLRightPtr (setAVLLeftPtr w (getAVLLeftPtr w)) p = setLink true w p :=
  congrArg (fun w => setAVLRightPtr w p) (setLink_link false w)

theorem setLinks_self (w : Value) :
    setAVLRightPtr (setAVLLeftPtr w (getAVLLeftPtr w)) (getAVLRightPtr w) = w :=
  (setLinks_right w _).trans (setLink_link true w)

theorem setBals_self (w : Value) : setRightBal (setLeftBal w (getLeftBal w)) (getRightBal w) = w :=
  (congrArg (fun w' => setRightBal w' (getRightBal w)) (setBal_bal false w)).trans (setBal_bal true w)

@[simp] theorem link_setBals (d bal_l bal_r : Bool) (w : Value) :
    link d (setRightBal (setLeftBal w bal_l) bal_r) = link d w :=
  (@link_setBal d true (setBal false w bal_l) bal_r).trans (@link_setBal d false w bal_l)

@[simp] theorem bal_setBals (d bal_l bal_r : Bool) (w : Value) :
    bal d (setRightBal (setLeftBal w bal_l) bal_r) = select d bal_l bal_r := by
  refine (@bal_setBal d true (setBal false w bal_l) bal_r).trans ?_
  cases d <;> simp

theorem link_zero (d : Bool) : link d 0 = 0 := by
  cases d <;> decide

theorem bal_zero (d : Bool) : bal d 0 = false := by
  cases d <;> decide

/-- The links and the balance bits of a word, in a direction and in the other. -/
structure Fields (d : Bool) (w near far : Value) (bal_near bal_far : Bool) : Prop where
  near : link d w = near
  far : link (!d) w = far
  bal_near : bal d w = bal_near
  bal_far : bal (!d) w = bal_far

theorem and_mask {p : Value} (hp : p.toNat < 2 ^ 31) : p &&& maskBits 31 = p :=
  and_maskBits_of_lt (by decide) hp

/-- A selection of links is not truncated. -/
theorem selectBits_eq {f : Bool} {x y : Value} (hx : x.toNat < 2 ^ 31) (hy : y.toNat < 2 ^ 31) :
    selectBits 31 f x y = select f x y :=
  selectBits_of_lt (by decide) hx hy

theorem selectBits_link (d : Bool) (w : Value) :
    selectBits 31 d (getAVLLeftPtr w) (getAVLRightPtr w) = link d w :=
  selectBits_eq (link_lt false w) (link_lt true w)

/-! ## Local steps -/

theorem rotate_false (gp_pointers p_ptr p_pointers c_ptr c_pointers : Value) (dir_gpp dir_pc F_gp : Bool) :
    rotate gp_pointers p_ptr p_pointers c_ptr c_pointers dir_gpp dir_pc false F_gp =
      (gp_pointers, p_pointers, c_pointers) := by
  have hl : ∀ w, getAVLLeftPtr w &&& maskBits 31 = getAVLLeftPtr w := fun w => and_mask (link_lt false w)
  have hr : ∀ w, getAVLRightPtr w &&& maskBits 31 = getAVLRightPtr w := fun w => and_mask (link_lt true w)
  simp [rotate, selectBits, select, hl, hr, setLinks_self]

/-- A rotation hands the child's link that points back to the parent, and takes the parent below. -/
theorem rotate_true {gp_pointers p_ptr p_pointers c_ptr c_pointers : Value} {dir_gpp dir_pc F_gp : Bool}
    (hp : p_ptr.toNat < 2 ^ 31) (hc : c_ptr.toNat < 2 ^ 31) :
    rotate gp_pointers p_ptr p_pointers c_ptr c_pointers dir_gpp dir_pc true F_gp =
      (if F_gp then gp_pointers else setLink dir_gpp gp_pointers c_ptr,
        setLink dir_pc p_pointers (link (!dir_pc) c_pointers), setLink (!dir_pc) c_pointers p_ptr) := by
  have hl : ∀ w, getAVLLeftPtr w &&& maskBits 31 = getAVLLeftPtr w := fun w => and_mask (link_lt false w)
  have hr : ∀ w, getAVLRightPtr w &&& maskBits 31 = getAVLRightPtr w := fun w => and_mask (link_lt true w)
  have hself : ∀ w, setAVLRightPtr w (getAVLRightPtr w) = w := setLink_link true
  have hcr : (getAVLRightPtr c_pointers).toNat < 2 ^ 31 := link_lt true c_pointers
  cases dir_pc <;> cases dir_gpp <;> cases F_gp <;>
    simp [rotate, selectBits, select, hl, hr, and_mask hp, hself, setLinks_right, setLinks_left hp,
      setLinks_left hc, setLinks_left hcr, setLink, link]

/-- Without a new height below, the balance stays. -/
theorem updateBalanceIns_false (bal_l bal_r child_dir : Bool) :
    updateBalanceIns bal_l bal_r false child_dir = (bal_l, bal_r, false, false) := by
  cases child_dir <;> rfl

theorem updateBalanceDel_false (bal_l bal_r child_dir : Bool) :
    updateBalanceDel bal_l bal_r false child_dir = (bal_l, bal_r, false, false) := by
  cases child_dir <;> cases bal_l <;> cases bal_r <;> rfl

/-- A child that has grown makes a balanced node heavy, and a heavy one imbalanced. -/
theorem updateBalanceIns_true {bal_l bal_r : Bool} (d : Bool) (h : (bal_l && bal_r) = false) :
    let heavy := !(bal_l || bal_r)
    updateBalanceIns bal_l bal_r true d =
      (select d heavy false, select d false heavy, heavy, select d bal_l bal_r) := by
  cases d <;> cases bal_l <;> cases bal_r <;> first | rfl | simp at h

/-- A child that has shrunk makes a balanced node heavy on the other side. -/
theorem updateBalanceDel_true {bal_l bal_r : Bool} (d : Bool) (h : (bal_l && bal_r) = false) :
    let heavy := !(bal_l || bal_r)
    updateBalanceDel bal_l bal_r true d =
      (select d false heavy, select d heavy false, !heavy, select d bal_r bal_l) := by
  cases d <;> cases bal_l <;> cases bal_r <;> first | rfl | simp at h

end AVL

end Prac
