import Prac.Oram
import Mathlib.Data.Nat.Size

/-!
# Oblivious binary search (`duoram.cpp`)

* `Shape.binarySearch` — `Shape::binary_search`: the search over a `Pad` of the next power of two, one
  comparison and one bit of the index at each level.
* `Shape.binarySearch_spec` — on a sorted shape it returns the least index with a value that is not
  below the target, or the size.
-/

namespace Prac

namespace Shape

variable {oramSize : Nat}

/-- `while (padsize <= shape_size) { padsize *= 2; ++depth; }` -/
def padLoop (shapeSize padsize depth : Nat) : Nat × Nat :=
  if 0 < padsize ∧ padsize ≤ shapeSize then padLoop shapeSize (padsize * 2) (depth + 1)
  else (padsize, depth)
termination_by shapeSize + 1 - padsize

/-- The search loop at `depth` levels to go: the stride holds the entries that could be the middle one
now. -/
def searchLoop (P : Shape oramSize) (mem : Words) (target : Value) : Nat → Index → Index
  | 0, oidx => oidx
  | depth + 1, oidx =>
    let S := Shape.stride P (1 <<< depth - 1) (1 <<< (depth + 1))
    let val := S.read mem oidx
    let (lt, _, _) := signedCompare (val - target)
    searchLoop P mem target depth (oidx.incr lt)

/-- `Shape::binary_search`.  The shifts are of `int`s, which overflow from `1 << 31` on. -/
def binarySearch (A : Shape oramSize) (mem : Words) (target : Value) : Option Value :=
  if A.size = 0 then some 0
  else
    let (padsize, depth) := padLoop A.size 1 0
    if depth > 31 then none
    else
      let P := Shape.pad A padsize maxint
      let mid := 1 <<< (depth - 1) - 1
      let val := P.get mem mid
      let (lt, _, _) := signedCompare (val - target)
      if depth = 1 then some (BitVec.ofNat 64 lt.toNat)
      else some (searchLoop P mem target (depth - 1) (Index.empty.incr lt)).idx

theorem padLoop_eq {shapeSize depth : Nat} (h : depth ≤ shapeSize.size) :
    padLoop shapeSize (2 ^ depth) depth = (2 ^ shapeSize.size, shapeSize.size) := by
  induction hk : shapeSize.size - depth generalizing depth with
  | zero =>
      have heq : depth = shapeSize.size := by omega
      have hlt : shapeSize < 2 ^ depth := heq ▸ shapeSize.lt_size_self
      unfold padLoop
      rw [if_neg (fun hle => absurd hle.2 (not_le.mpr hlt)), heq]
  | succ k ih =>
      have hle : 2 ^ depth ≤ shapeSize := Nat.lt_size.mp (by omega)
      unfold padLoop
      rw [if_pos ⟨Nat.two_pow_pos depth, hle⟩, ← Nat.pow_succ]
      exact ih (by omega) (by omega)

end Shape

/-- A bit appended to an index that fits. -/
theorem Index.incr_idx {oidx : Index} (hdepth : oidx.curdepth < 64)
    (hidx : oidx.idx.toNat < 2 ^ oidx.curdepth) (bit : Bool) :
    (oidx.incr bit).idx.toNat = 2 * oidx.idx.toNat + bit.toNat := by
  have hpow : 2 ^ oidx.curdepth * 2 ≤ 2 ^ 64 := by
    rw [← Nat.pow_succ]
    exact Nat.pow_le_pow_right Nat.two_pos hdepth
  have hshift : (oidx.idx <<< 1).toNat = 2 * oidx.idx.toNat := by
    rw [BitVec.toNat_shiftLeft, Nat.shiftLeft_eq, Nat.mod_eq_of_lt (by omega)]
    omega
  have hbit : bit.toNat < 2 ^ 1 := Bool.toNat_lt bit
  unfold incr
  rw [BitVec.toNat_or, hshift, BitVec.toNat_ofNat, Nat.mod_eq_of_lt (by omega)]
  exact (Nat.two_pow_add_eq_or_of_lt hbit oidx.idx.toNat).symm

theorem Index.incr_curdepth (oidx : Index) (bit : Bool) :
    (oidx.incr bit).curdepth = oidx.curdepth + 1 := rfl

theorem Index.pos_eq {oidx : Index} (hidx : oidx.idx.toNat < 2 ^ oidx.curdepth) :
    oidx.pos = oidx.idx.toNat := Nat.mod_eq_of_lt hidx

namespace Shape

variable {oramSize : Nat}

theorem pad_get (A : Shape oramSize) (mem : Words) (padsize idx : Nat) (padval : Value) :
    (Shape.pad A padsize padval).get mem idx = if idx < A.size then A.get mem idx else padval := by
  unfold get
  rw [cell]
  split_ifs <;> rfl

theorem stride_get (P : Shape oramSize) (mem : Words) (offset step idx : Nat) :
    (Shape.stride P offset step).get mem idx = P.get mem (min offset P.size + idx * step) := rfl

/-- The stride of the loop holds one entry for each value of the bits found so far. -/
theorem stride_size {P : Shape oramSize} {depth found : Nat} (hfits : depth + 1 + found ≤ 63)
    (hP : P.size = 2 ^ (depth + 1 + found)) :
    (Shape.stride P (1 <<< depth - 1) (1 <<< (depth + 1))).size = 2 ^ found := by
  have hlarge : 2 ^ (depth + 1 + found) ≤ 2 ^ 63 := Nat.pow_le_pow_right Nat.two_pos hfits
  have hpos := Nat.two_pow_pos depth
  have hprod : 2 ^ (depth + 1 + found) = 2 ^ found * 2 ^ (depth + 1) := by
    rw [Nat.add_comm, Nat.pow_add]
  have hle : 2 ^ (depth + 1) ≤ 2 ^ (depth + 1 + found) :=
    Nat.pow_le_pow_right Nat.two_pos (by omega)
  have hdouble : 2 ^ (depth + 1) = 2 * 2 ^ depth := by rw [Nat.pow_succ, Nat.mul_comm]
  simp only [size, Nat.one_shiftLeft, hP]
  rw [strideNumElements_eq (by omega), Nat.min_eq_left (by omega)]
  have hregion : 2 ^ (depth + 1 + found) - (2 ^ depth - 1) + 2 ^ (depth + 1) - 1 =
      2 ^ depth + 2 ^ found * 2 ^ (depth + 1) := by omega
  rw [hregion, Nat.add_mul_div_right _ _ (Nat.two_pow_pos _), Nat.div_eq_of_lt (by omega),
    Nat.zero_add]

/-- The loop finds `r` if the comparisons tell the entries before `r` from the others: after each
iteration the index holds the leading bits of `r`. -/
theorem searchLoop_spec {P : Shape oramSize} {mem : Words} {target : Value} {d r : Nat}
    (hd : d ≤ 63) (hP : P.size = 2 ^ d) (hr : r < 2 ^ d)
    (hlt : ∀ i < 2 ^ d, (signedCompare (P.get mem i - target)).1 = decide (i < r)) (depth : Nat)
    (oidx : Index) (hdepth : depth + oidx.curdepth = d) (hidx : oidx.idx.toNat = r / 2 ^ depth) :
    (searchLoop P mem target depth oidx).idx.toNat = r := by
  induction depth generalizing oidx with
  | zero =>
      rw [searchLoop, hidx, Nat.pow_zero, Nat.div_one]
  | succ depth ih =>
      have hfit : oidx.idx.toNat < 2 ^ oidx.curdepth := by
        rw [hidx, Nat.div_lt_iff_lt_mul (Nat.two_pow_pos _), ← Nat.pow_add, Nat.add_comm, hdepth]
        exact hr
      have hhalf : oidx.idx.toNat = r / 2 ^ depth / 2 := by
        rw [hidx, Nat.div_div_eq_div_mul, Nat.pow_succ]
      have hpos := Nat.two_pow_pos depth
      have hmid : 2 ^ depth - 1 + oidx.idx.toNat * 2 ^ (depth + 1) < r ↔
          2 * oidx.idx.toNat + 1 ≤ r / 2 ^ depth := by
        rw [Nat.le_div_iff_mul_le hpos, Nat.pow_succ, Nat.add_mul, Nat.one_mul, Nat.mul_comm 2,
          Nat.mul_assoc, Nat.mul_comm 2]
        omega
      have hbound : 2 ^ depth - 1 + oidx.idx.toNat * 2 ^ (depth + 1) < 2 ^ d := by
        have hmul : (oidx.idx.toNat + 1) * 2 ^ (depth + 1) ≤ 2 ^ oidx.curdepth * 2 ^ (depth + 1) :=
          Nat.mul_le_mul_right _ hfit
        rw [← Nat.pow_add, Nat.add_comm oidx.curdepth, hdepth, Nat.add_mul, Nat.one_mul] at hmul
        have hdouble : 2 ^ (depth + 1) = 2 ^ depth * 2 := Nat.pow_succ 2 depth
        omega
      have hval : (Shape.stride P (1 <<< depth - 1) (1 <<< (depth + 1))).read mem oidx =
          P.get mem (2 ^ depth - 1 + oidx.idx.toNat * 2 ^ (depth + 1)) := by
        unfold read
        rw [stride_size (by rwa [hdepth]) (by rw [hP, hdepth]), Index.pos_eq hfit, if_pos hfit, stride_get, hP,
          Nat.one_shiftLeft, Nat.one_shiftLeft, Nat.min_eq_left]
        exact (Nat.sub_le _ _).trans (Nat.pow_le_pow_right Nat.two_pos (by omega))
      have hbit := hlt _ hbound
      rw [searchLoop]
      dsimp only
      rw [hval, hbit]
      apply ih
      · rw [Index.incr_curdepth]
        omega
      · rw [Index.incr_idx (by omega) hfit]
        rcases Nat.lt_or_ge (r / 2 ^ depth) (2 * oidx.idx.toNat + 1) with hsmall | hbig
        · rw [decide_eq_false (fun h => absurd (hmid.mp h) (not_le.mpr hsmall)), Bool.toNat_false]
          omega
        · rw [decide_eq_true (hmid.mpr hbig), Bool.toNat_true]
          omega

/-- The size of the pad, for a shape of fewer than `2 ^ 31` entries. -/
theorem padLoop_spec {shapeSize k : Nat} (hzero : shapeSize ≠ 0) (hsize : shapeSize < 2 ^ k) :
    ∃ d, padLoop shapeSize 1 0 = (2 ^ (d + 1), d + 1) ∧ shapeSize < 2 ^ (d + 1) ∧ d + 1 ≤ k := by
  have hdpos : 0 < shapeSize.size := Nat.size_pos.mpr (Nat.pos_of_ne_zero hzero)
  obtain ⟨d, hdepth⟩ : ∃ d, shapeSize.size = d + 1 := ⟨shapeSize.size - 1, by omega⟩
  exact ⟨d, hdepth ▸ padLoop_eq (Nat.zero_le shapeSize.size), hdepth ▸ shapeSize.lt_size_self,
    hdepth ▸ Nat.size_le.mpr hsize⟩

/-- The entries of the pad before `r` are those below the target. -/
theorem pad_lt_iff {A : Shape oramSize} {mem : Words} {target : Value}
    (hval : ∀ i < A.size, A.get mem i ≤ maxint) (htarget : target ≤ maxint) {r : Nat}
    (hr : r ≤ A.size) (hbelow : ∀ i < r, (A.get mem i).toNat < target.toNat)
    (habove : ∀ i, r ≤ i → i < A.size → target.toNat ≤ (A.get mem i).toNat) (padsize i : Nat) :
    (signedCompare ((Shape.pad A padsize maxint).get mem i - target)).1 = decide (i < r) := by
  rw [pad_get]
  split
  · rename_i hin
    rw [signedCompare_sub (hval i hin) htarget, decide_eq_decide]
    rcases Nat.lt_or_ge i r with hir | hir
    · exact iff_of_true (hbelow i hir) hir
    · exact iff_of_false (not_lt.mpr (habove i hir hin)) (not_lt.mpr hir)
  · rw [signedCompare_sub (BitVec.le_refl _) htarget, decide_eq_decide]
    exact iff_of_false (not_lt.mpr (BitVec.le_def.mp htarget)) (by omega)

/-- Binary search on a shape of fewer than `2 ^ 31` sorted values finds the position of the target. -/
theorem binarySearch_spec {A : Shape oramSize} {mem : Words} {target : Value} (hsize : A.size < 2 ^ 31)
    (hval : ∀ i < A.size, A.get mem i ≤ maxint) (htarget : target ≤ maxint) {r : Nat}
    (hr : r ≤ A.size) (hbelow : ∀ i < r, (A.get mem i).toNat < target.toNat)
    (habove : ∀ i, r ≤ i → i < A.size → target.toNat ≤ (A.get mem i).toNat) :
    ∃ idx, A.binarySearch mem target = some idx ∧ idx.toNat = r := by
  unfold binarySearch
  by_cases hzero : A.size = 0
  · rw [if_pos hzero]
    exact ⟨0, rfl, by simp; omega⟩
  obtain ⟨d, hloop, hpow, hd⟩ := padLoop_spec hzero hsize
  -- the pad continues the sorted sequence with values that are not below the target
  have hlt : ∀ i < 2 ^ (d + 1),
      (signedCompare ((Shape.pad A (2 ^ (d + 1)) maxint).get mem i - target)).1 =
        decide (i < r) := fun i _ => pad_lt_iff hval htarget hr hbelow habove _ i
  rw [if_neg hzero, hloop]
  dsimp only
  rw [if_neg (by omega), Nat.add_sub_cancel, Nat.one_shiftLeft,
    hlt _ (by rw [Nat.pow_succ]; have := Nat.two_pow_pos d; omega)]
  have hpos := Nat.two_pow_pos d
  have hfirst : (decide (2 ^ d - 1 < r)).toNat = r / 2 ^ d := by
    rcases Nat.lt_or_ge r (2 ^ d) with hsmall | hbig
    · rw [decide_eq_false (by omega), Bool.toNat_false, Nat.div_eq_of_lt hsmall]
    · rw [decide_eq_true (by omega), Bool.toNat_true]
      exact (Nat.div_eq_of_lt_le (by omega) (by omega)).symm
  split
  · rename_i hone
    have hd0 : d = 0 := by omega
    refine ⟨_, rfl, ?_⟩
    rw [BitVec.toNat_ofNat, hfirst, hd0, Nat.pow_zero, Nat.div_one]
    exact Nat.mod_eq_of_lt (by omega)
  · refine ⟨_, rfl, searchLoop_spec (d := d + 1) (by omega) rfl (by omega) hlt d _ ?_ ?_⟩
    · rfl
    · rw [Index.incr_idx (by decide) (by decide), hfirst]
      exact Nat.zero_add _

end Shape

end Prac
