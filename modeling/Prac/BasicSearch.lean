import Prac.BinarySearch
import Mathlib.Order.Bounds.Basic

/-!
# The two oblivious binary searches (`duoram.cpp`)

* `Shape.basicBinarySearch` — `Shape::basic_binary_search`: an additively shared midpoint moves by halves
  over a `Pad` of the next power of two.
* `Shape.basicBinarySearch_spec` — on a sorted shape it finds what `binarySearch` finds.
* `Shape.padFuel_iff` — the `address_t` that the size of the pad is computed in: the loop ends if and
  only if the shape has fewer than `2 ^ 31` entries, and then with the values of `padLoop`.
* `Shape.binary_searches_iff` — both searches return the least index with a value that is not below the
  target if and only if the shape has fewer than `2 ^ 30` entries: from there on the RDPFs of the basic
  search cannot be made.
-/

namespace Prac

namespace Shape

variable {oramSize : Nat}

/-! ## The basic search -/

/-- The loop of `basic_binary_search` at `depth` levels to go: `index` is the last entry of the left half
of a range of `2 ^ depth`. -/
def basicLoop (P : Shape oramSize) (mem : Words) (target : Value) : Nat → Value → Value
  | 0, index => index
  | depth + 1, index =>
    let val := P.read mem (P.index index)
    let (lt, _, _) := signedCompare (val - target)
    if depth + 1 > 1 then
      let uncond := BitVec.ofNat 64 (1 <<< (depth - 1))
      let cond := BitVec.ofNat 64 (1 <<< depth)
      let condprod := flagmult lt cond
      basicLoop P mem target depth (index - uncond + condprod)
    else
      let condprod := flagmult lt 1
      basicLoop P mem target depth (index + condprod)

/-- `Shape::basic_binary_search`.  The loop for the size of the pad is the one of `binary_search`, and
does not end where `depth` would pass 31 (`padFuel_iff`).  At 31 the first `P[index]` throws: the
constructor makes no RDPF of that depth. -/
def basicBinarySearch (A : Shape oramSize) (mem : Words) (target : Value) : Option Value :=
  if A.size = 0 then some 0
  else
    let (padsize, depth) := padLoop A.size 1 0
    if depth > RDPF.maxKeyDepth then none
    else
      let P := Shape.pad A padsize maxint
      some (basicLoop P mem target depth (BitVec.ofNat 64 (1 <<< (depth - 1) - 1)))

/-- A read at an additively shared index of a shape whose size is a power of two. -/
theorem read_index {P : Shape oramSize} {d : Nat} (hP : P.size = 2 ^ d) (mem : Words) {index : Value}
    (hindex : index.toNat < 2 ^ d) : P.read mem (P.index index) = P.get mem index.toNat := by
  have hpos : (P.index index).pos = index.toNat := by
    apply Index.pos_eq
    show index.toNat < 2 ^ P.addrSize
    rwa [addrSize_two_pow hP]
  unfold read
  rw [hpos, hP, if_pos hindex]

/-- The loop finds `r` if the comparisons tell the entries before `r` from the others.  The remaining
range is `lo, …, lo + 2 ^ (depth + 1) - 1`. -/
theorem basicLoop_spec {P : Shape oramSize} {mem : Words} {target : Value} {d r : Nat}
    (hd : d ≤ 31) (hP : P.size = 2 ^ d)
    (hlt : ∀ i < 2 ^ d, (signedCompare (P.get mem i - target)).1 = decide (i < r)) (depth lo : Nat)
    (index : Value) (hlo : lo ≤ r) (hr : r < lo + 2 ^ (depth + 1))
    (hhi : lo + 2 ^ (depth + 1) ≤ 2 ^ d) (hindex : index.toNat + 1 = lo + 2 ^ depth) :
    (basicLoop P mem target (depth + 1) index).toNat = r := by
  have hbig : 2 ^ d ≤ 2 ^ 31 := Nat.pow_le_pow_right Nat.two_pos hd
  have hzero : BitVec.toNat (0 : Value) = 0 := rfl
  have hone : BitVec.toNat (1 : Value) = 1 := rfl
  induction depth generalizing lo index with
  | zero =>
      have hbit : (signedCompare (P.read mem (P.index index) - target)).1 = decide (lo < r) := by
        rw [read_index hP mem (by omega), hlt _ (by omega), decide_eq_decide]
        omega
      simp only [basicLoop, hbit, Nat.lt_irrefl, Nat.zero_add, gt_iff_lt, if_false]
      by_cases h : lo < r
      · rw [decide_eq_true h, flagmult, if_pos rfl, BitVec.toNat_add, hone]
        omega
      · rw [decide_eq_false h, flagmult, if_neg (by decide), BitVec.toNat_add, hzero]
        omega
  | succ depth ih =>
      have hpow : 2 ^ (depth + 1) = 2 * 2 ^ depth := Nat.pow_succ'
      have hpow' : 2 ^ (depth + 1 + 1) = 2 * 2 ^ (depth + 1) := Nat.pow_succ'
      have hpos := Nat.two_pow_pos depth
      have hbit : (signedCompare (P.read mem (P.index index) - target)).1 =
          decide (lo + 2 ^ (depth + 1) ≤ r) := by
        rw [read_index hP mem (by omega), hlt _ (by omega), decide_eq_decide]
        omega
      have huncond : (BitVec.ofNat 64 (1 <<< depth)).toNat = 2 ^ depth := by
        rw [BitVec.toNat_ofNat, Nat.one_shiftLeft]
        exact Nat.mod_eq_of_lt (by omega)
      have hcond : (BitVec.ofNat 64 (1 <<< (depth + 1))).toNat = 2 ^ (depth + 1) := by
        rw [BitVec.toNat_ofNat, Nat.one_shiftLeft]
        exact Nat.mod_eq_of_lt (by omega)
      rw [basicLoop]
      simp only [hbit, if_pos (show depth + 1 + 1 > 1 by omega), Nat.add_sub_cancel]
      by_cases h : lo + 2 ^ (depth + 1) ≤ r
      · -- the answer is strictly to the right
        refine ih (lo + 2 ^ (depth + 1)) _ h (by omega) (by omega) ?_
        rw [decide_eq_true h, flagmult, if_pos rfl, BitVec.toNat_add, BitVec.toNat_sub, huncond, hcond]
        omega
      · refine ih lo _ hlo (by omega) (by omega) ?_
        rw [decide_eq_false h, flagmult, if_neg (by decide), BitVec.toNat_add, BitVec.toNat_sub, huncond,
          hzero]
        omega

/-- The basic search on a shape of fewer than `2 ^ 30` sorted values finds the position of the target. -/
theorem basicBinarySearch_spec {A : Shape oramSize} {mem : Words} {target : Value}
    (hsize : A.size < 2 ^ 30) (hval : ∀ i < A.size, A.get mem i ≤ maxint) (htarget : target ≤ maxint)
    {r : Nat} (hr : r ≤ A.size) (hbelow : ∀ i < r, (A.get mem i).toNat < target.toNat)
    (habove : ∀ i, r ≤ i → i < A.size → target.toNat ≤ (A.get mem i).toNat) :
    ∃ idx, A.basicBinarySearch mem target = some idx ∧ idx.toNat = r := by
  unfold basicBinarySearch
  by_cases hzero : A.size = 0
  · rw [if_pos hzero]
    refine ⟨0, rfl, ?_⟩
    show 0 = r
    omega
  obtain ⟨d, hloop, hpow, hd⟩ := padLoop_spec hzero hsize
  have hpos := Nat.two_pow_pos d
  have hbig : 2 ^ (d + 1) ≤ 2 ^ 31 := Nat.pow_le_pow_right Nat.two_pos (by omega)
  have hdouble : 2 ^ (d + 1) = 2 * 2 ^ d := Nat.pow_succ'
  rw [if_neg hzero, hloop]
  dsimp only
  rw [if_neg (show ¬d + 1 > RDPF.maxKeyDepth from not_lt.mpr hd), Nat.add_sub_cancel, Nat.one_shiftLeft]
  refine ⟨_, rfl, ?_⟩
  apply basicLoop_spec (d := d + 1) (by omega) rfl
    (fun i _ => pad_lt_iff hval htarget hr hbelow habove _ i) d 0
  · exact Nat.zero_le r
  · omega
  · omega
  · rw [BitVec.toNat_ofNat, Nat.mod_eq_of_lt (by omega)]
    omega

/-! ## The size of the pad in an `address_t` -/

/-- The loop for the size of the pad, in the 32 bits of an `address_t`; `none` if it is still running
after `fuel` iterations. -/
def padFuel (shapeSize : Nat) : Nat → BitVec 32 → Nat → Option (BitVec 32 × Nat)
  | 0, _, _ => none
  | fuel + 1, padsize, depth =>
    if padsize.toNat ≤ shapeSize then padFuel shapeSize fuel (padsize * 2) (depth + 1)
    else some (padsize, depth)

/-- From `2 ^ 31` entries on no power of two in 32 bits is larger: the size of the pad becomes 0 and
stays 0. -/
theorem padFuel_none {shapeSize : Nat} (h : 2 ^ 31 ≤ shapeSize) (fuel k depth : Nat) :
    padFuel shapeSize fuel (BitVec.ofNat 32 (2 ^ k)) depth = none := by
  induction fuel generalizing k depth with
  | zero => rfl
  | succ fuel ih =>
      have hle : (BitVec.ofNat 32 (2 ^ k)).toNat ≤ shapeSize := by
        rw [BitVec.toNat_ofNat]
        rcases Nat.lt_or_ge k 32 with hk | hk
        · have hpow : 2 ^ k ≤ 2 ^ 31 := Nat.pow_le_pow_right Nat.two_pos (by omega)
          exact (Nat.mod_le _ _).trans (hpow.trans h)
        · rw [Nat.mod_eq_zero_of_dvd (Nat.pow_dvd_pow 2 hk)]
          exact Nat.zero_le _
      have hnext : BitVec.ofNat 32 (2 ^ k) * 2 = BitVec.ofNat 32 (2 ^ (k + 1)) := by
        rw [Nat.pow_succ, BitVec.ofNat_mul]
        rfl
      rw [padFuel, if_pos hle, hnext]
      exact ih (k + 1) (depth + 1)

theorem padFuel_some {shapeSize : Nat} (h : shapeSize < 2 ^ 31) (fuel depth : Nat)
    (hfuel : depth + fuel = shapeSize.size) :
    padFuel shapeSize (fuel + 1) (BitVec.ofNat 32 (2 ^ depth)) depth =
      some (BitVec.ofNat 32 (2 ^ shapeSize.size), shapeSize.size) := by
  have hsize : shapeSize.size ≤ 31 := Nat.size_le.mpr h
  have hfit : ∀ k ≤ 31, (BitVec.ofNat 32 (2 ^ k)).toNat = 2 ^ k := by
    intro k hk
    rw [BitVec.toNat_ofNat]
    exact Nat.mod_eq_of_lt (Nat.pow_lt_pow_right Nat.one_lt_two (by omega))
  induction fuel generalizing depth with
  | zero =>
      obtain rfl : depth = shapeSize.size := by omega
      rw [padFuel, hfit _ hsize, if_neg (not_le.mpr shapeSize.lt_size_self)]
  | succ fuel ih =>
      have hle : 2 ^ depth ≤ shapeSize := Nat.lt_size.mp (by omega)
      have hnext : BitVec.ofNat 32 (2 ^ depth) * 2 = BitVec.ofNat 32 (2 ^ (depth + 1)) := by
        rw [Nat.pow_succ, BitVec.ofNat_mul]
        rfl
      rw [padFuel, hfit _ (by omega), if_pos hle, hnext]
      exact ih (depth + 1) (by omega)

/-- The 32-bit loop ends if and only if the shape has fewer than `2 ^ 31` entries, which is when
`padLoop` gives at most 31 levels. -/
theorem padFuel_iff (shapeSize : Nat) :
    ((∃ fuel out, padFuel shapeSize fuel 1 0 = some out) ↔ shapeSize < 2 ^ 31) ∧
    ((padLoop shapeSize 1 0).2 ≤ 31 ↔ shapeSize < 2 ^ 31) ∧
    (shapeSize < 2 ^ 31 → ∃ fuel out, padFuel shapeSize fuel 1 0 = some out ∧
      (out.1.toNat, out.2) = padLoop shapeSize 1 0) := by
  have hloop : padLoop shapeSize 1 0 = (2 ^ shapeSize.size, shapeSize.size) :=
    padLoop_eq (Nat.zero_le shapeSize.size)
  have hends (h : shapeSize < 2 ^ 31) :
      padFuel shapeSize (shapeSize.size + 1) 1 0 =
        some (BitVec.ofNat 32 (2 ^ shapeSize.size), shapeSize.size) :=
    padFuel_some h shapeSize.size 0 (Nat.zero_add _)
  refine ⟨⟨?_, fun h => ⟨_, _, hends h⟩⟩, ?_, fun h => ⟨_, _, hends h, ?_⟩⟩
  · rintro ⟨fuel, out, hout⟩
    by_contra hbig
    have hnone : padFuel shapeSize fuel 1 0 = none := padFuel_none (not_lt.mp hbig) fuel 0 0
    rw [hnone] at hout
    cases hout
  · rw [hloop]
    exact Nat.size_le
  · have hsize : shapeSize.size ≤ 31 := Nat.size_le.mpr h
    rw [hloop, BitVec.toNat_ofNat,
      Nat.mod_eq_of_lt (Nat.pow_lt_pow_right Nat.one_lt_two (by omega))]

/-! ## Both searches -/

/-- A shape of sorted values that signed comparisons can order. -/
structure Sorted (A : Shape oramSize) (mem : Words) : Prop where
  range : ∀ i < A.size, A.get mem i ≤ maxint
  sorted : ∀ i j, i ≤ j → j < A.size → (A.get mem i).toNat ≤ (A.get mem j).toNat

/-- `r` is the least index with a value that is not below the target, or the size. -/
def IsAnswer (A : Shape oramSize) (mem : Words) (target : Value) (r : Nat) : Prop :=
  IsLeast { i | i ≤ A.size ∧ (i < A.size → target.toNat ≤ (A.get mem i).toNat) } r

/-- Both searches return `r`. -/
def BothFind (A : Shape oramSize) (mem : Words) (target : Value) (r : Nat) : Prop :=
  (∃ idx, A.basicBinarySearch mem target = some idx ∧ idx.toNat = r) ∧
    ∃ idx, A.binarySearch mem target = some idx ∧ idx.toNat = r

theorem exists_isAnswer (A : Shape oramSize) (mem : Words) (target : Value) :
    ∃ r, A.IsAnswer mem target r := by
  classical
  have hex : ∃ i, i ≤ A.size ∧ (i < A.size → target.toNat ≤ (A.get mem i).toNat) :=
    ⟨A.size, le_rfl, fun h => absurd h (lt_irrefl _)⟩
  exact ⟨Nat.find hex, Nat.find_spec hex, fun i hi => Nat.find_min' hex hi⟩

theorem IsAnswer.below {A : Shape oramSize} {mem : Words} {target : Value} {r : Nat}
    (h : A.IsAnswer mem target r) {i : Nat} (hi : i < r) : (A.get mem i).toNat < target.toNat := by
  by_contra hge
  have hmem : r ≤ i := h.2 ⟨hi.le.trans h.1.1, fun _ => not_lt.mp hge⟩
  exact absurd hi (not_lt.mpr hmem)

theorem IsAnswer.above {A : Shape oramSize} {mem : Words} {target : Value} {r : Nat}
    (h : A.IsAnswer mem target r) (hA : A.Sorted mem) {i : Nat} (hri : r ≤ i) (hi : i < A.size) :
    target.toNat ≤ (A.get mem i).toNat :=
  (h.1.2 (hri.trans_lt hi)).trans (hA.sorted r i hri hi)

/-- The sizes whose pad has more than `k` levels. -/
theorem lt_padLoop {shapeSize k : Nat} (h : 2 ^ k ≤ shapeSize) : k < (padLoop shapeSize 1 0).2 := by
  rw [show padLoop shapeSize 1 0 = _ from padLoop_eq (Nat.zero_le shapeSize.size)]
  exact Nat.lt_size.mpr h

/-- From `2 ^ 30` entries on the basic search fails: at its first read, or in the loop for the size of
the pad. -/
theorem basicBinarySearch_none {A : Shape oramSize} (h : 2 ^ 30 ≤ A.size) (mem : Words)
    (target : Value) : A.basicBinarySearch mem target = none := by
  rw [basicBinarySearch, if_neg (by omega)]
  exact if_pos (lt_padLoop h)

/-- From `2 ^ 31` entries on `binary_search` does not get past the computation of the size of the pad. -/
theorem binarySearch_none {A : Shape oramSize} (h : 2 ^ 31 ≤ A.size) (mem : Words) (target : Value) :
    A.binarySearch mem target = none := by
  rw [binarySearch, if_neg (by omega)]
  exact if_pos (lt_padLoop h)

/-- **Both binary searches**, on sorted values: they return the least index with a value that is not
below the target, or the size, if and only if the shape has fewer than `2 ^ 30` entries.  `binary_search`
alone does so up to `2 ^ 31` entries. -/
theorem binary_searches_iff {A : Shape oramSize} {mem : Words} {target : Value} (hA : A.Sorted mem)
    (htarget : target ≤ maxint) :
    ((∃ r, A.IsAnswer mem target r ∧ A.BothFind mem target r) ↔ A.size < 2 ^ 30) ∧
      ((∃ r idx, A.IsAnswer mem target r ∧ A.binarySearch mem target = some idx ∧ idx.toNat = r) ↔
        A.size < 2 ^ 31) := by
  obtain ⟨r, hr⟩ := A.exists_isAnswer mem target
  have hbelow : ∀ i < r, (A.get mem i).toNat < target.toNat := fun i hi => hr.below hi
  have habove : ∀ i, r ≤ i → i < A.size → target.toNat ≤ (A.get mem i).toNat :=
    fun i hri hi => hr.above hA hri hi
  refine ⟨⟨?_, fun hsize => ⟨r, hr, ?_, ?_⟩⟩, ⟨?_, fun hsize => ?_⟩⟩
  · rintro ⟨r, -, ⟨idx, hidx, -⟩, -⟩
    by_contra hbig
    rw [basicBinarySearch_none (not_lt.mp hbig)] at hidx
    cases hidx
  · exact basicBinarySearch_spec hsize hA.range htarget hr.1.1 hbelow habove
  · exact binarySearch_spec (hsize.trans (by decide)) hA.range htarget hr.1.1 hbelow habove
  · rintro ⟨r, idx, -, hidx, -⟩
    by_contra hbig
    rw [binarySearch_none (not_lt.mp hbig)] at hidx
    cases hidx
  · obtain ⟨idx, hrun, hidx⟩ := binarySearch_spec hsize hA.range htarget hr.1.1 hbelow habove
    exact ⟨r, idx, hr, hrun, hidx⟩

/-- A constant memory is sorted. -/
theorem sorted_const (size : Nat) (v : Value) (hv : v ≤ maxint) :
    (Shape.whole size).val.Sorted fun _ => v where
  range i _ := (whole_get _ i).symm ▸ hv
  sorted i j _ _ := by rw [whole_get, whole_get]

/-- Three equal values: both searches for that value return 0. -/
theorem binary_searches_three :
    ∃ r, (Shape.whole 3).val.IsAnswer (fun _ => 5) 5 r ∧
      (Shape.whole 3).val.BothFind (fun _ => 5) 5 r :=
  (binary_searches_iff (sorted_const 3 5 (by decide)) (by decide)).1.mpr
    (by rw [whole_size]; decide)

/-- On `2 ^ 30` zeros the basic search for 0 does not return, and on `2 ^ 31` neither search does. -/
theorem binary_searches_full :
    ((Shape.whole (2 ^ 30)).val.Sorted (fun _ => 0) ∧
      ¬∃ r, (Shape.whole (2 ^ 30)).val.IsAnswer (fun _ => 0) 0 r ∧
        (Shape.whole (2 ^ 30)).val.BothFind (fun _ => 0) 0 r) ∧
    (Shape.whole (2 ^ 31)).val.Sorted (fun _ => 0) ∧
      (Shape.whole (2 ^ 31)).val.basicBinarySearch (fun _ => 0) 0 = none ∧
      (Shape.whole (2 ^ 31)).val.binarySearch (fun _ => 0) 0 = none := by
  refine ⟨⟨sorted_const _ 0 (by decide), ?_⟩, sorted_const _ 0 (by decide),
    basicBinarySearch_none ((Nat.pow_le_pow_right Nat.two_pos (by decide)).trans (whole_size (2 ^ 31)).ge) _ _,
    binarySearch_none (whole_size (2 ^ 31)).ge _ _⟩
  rintro ⟨r, -, ⟨idx, hidx, -⟩, -⟩
  rw [basicBinarySearch_none (whole_size (2 ^ 30)).ge] at hidx
  cases hidx

end Shape

end Prac
