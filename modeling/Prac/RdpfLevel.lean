import Prac.Rdpf
import Mathlib.Algebra.BigOperators.Intervals
import Mathlib.Algebra.BigOperators.Pi

/-!
# What one level of key generation computes

* `expandLevel_spec` — every child is the PRG output of its parent and `L`, `R` are the XORs of
  the two sides, however many threads share the work.
* `finalizeNonleafLayer_spec`, `finalizeLeafLayer_spec` — every child is corrected by its parent's
  flag; the leaf sums are the sums over all leaves.
* `levelCorrection_spec` — both parties obtain one correction, and the corrected levels differ at
  exactly one point.
* `createLeafLevel_spec` — the assertion on the low sum holds and the inverse scales the leaves to
  a unit vector.
-/

namespace Prac

open Loop Xor

variable {WIDTH : Nat} {NT : Type} [LevelNode NT]

theorem levelThreads_pos (maxNthreads : ℕ+) {level : Nat} (hlevel : 19 ≤ level) :
    0 < levelThreads maxNthreads (2 ^ level) := by
  have hsize : 2 ^ 19 ≤ 2 ^ level := Nat.pow_le_pow_right (by decide) hlevel
  have hq : 1 ≤ 2 ^ level / 6000 := (Nat.le_div_iff_mul_le (by decide)).mpr (by omega)
  have hsqrt : 0 < (2 ^ level / 6000).sqrt := Nat.sqrt_pos.mpr hq
  unfold levelThreads
  refine lt_min ?_ maxNthreads.pos
  split <;> omega

/-! ## Expansion -/

/-- Invariant of the expansion of `[0, n)`: the children written and the two side sums. -/
structure Expanded (prg : DPFnode → Bool → NT) (curlevel : Nat → DPFnode) (n : Nat)
    (s : (Nat → NT) × NT × NT) : Prop where
  next : ∀ j < 2 * n, s.1 j = prg (curlevel (j / 2)) (j % 2 == 1)
  left : s.2.1 = xorSum (fun i => prg (curlevel i) false) n
  right : s.2.2 = xorSum (fun i => prg (curlevel i) true) n

omit [LevelNode NT] in
theorem update_children (f : Nat → NT) (i : Nat) (l r : NT) (g : Nat → NT)
    (hl : g (2 * i) = l) (hr : g (2 * i + 1) = r) (hf : ∀ j < 2 * i, f j = g j) :
    ∀ j < 2 * (i + 1), Function.update (Function.update f (2 * i) l) (2 * i + 1) r j = g j := by
  intro j hj
  by_cases h1 : j = 2 * i + 1
  · simp [h1, hr]
  · by_cases h0 : j = 2 * i
    · simp [h0, hl]
    · rw [Function.update_of_ne h1, Function.update_of_ne h0]
      exact hf j (by omega)

/-- A thread's share of the expansion: its sums are those of its own range. -/
theorem expandLevelNothreads_spec {prg : DPFnode → Bool → NT} {curlevel : Nat → DPFnode}
    {a b : Nat} (hab : a ≤ b) {s : (Nat → NT) × NT × NT} (h : Expanded prg curlevel a s) :
    let t := expandLevelNothreads prg a b curlevel s.1
    Expanded prg curlevel b (t.1, s.2.1 ^^^ t.2.1, s.2.2 ^^^ t.2.2) := by
  intro t
  refine forRange_inv (s := (s.1, 0, 0))
    (fun n (t : (Nat → NT) × NT × NT) =>
      Expanded prg curlevel n (t.1, s.2.1 ^^^ t.2.1, s.2.2 ^^^ t.2.2)) hab ?_ ?_
  · simpa [xor_zero] using h
  · rintro i ⟨next, L, R⟩ - - hi
    refine ⟨update_children _ _ _ _ (fun j => prg (curlevel (j / 2)) (j % 2 == 1)) ?_ ?_ hi.next,
      ?_, ?_⟩
    · simp
    · have hdiv : (2 * i + 1) / 2 = i := by omega
      simp [hdiv]
    · rw [xorSum, ← hi.left]
      exact (xor_assoc _ _ _).symm
    · rw [xorSum, ← hi.right]
      exact (xor_assoc _ _ _).symm

theorem Expanded.zero (prg : DPFnode → Bool → NT) (curlevel : Nat → DPFnode) (next : Nat → NT) :
    Expanded prg curlevel 0 (next, 0, 0) :=
  ⟨fun j hj => by omega, rfl, rfl⟩

/-- The expansion of a level, with any number of threads. -/
theorem expandLevel_spec (prg : DPFnode → Bool → NT) (maxNthreads : ℕ+) (level : Nat)
    (curlevel : Nat → DPFnode) :
    Expanded prg curlevel (2 ^ level) (expandLevel prg maxNthreads level curlevel) := by
  unfold expandLevel
  split
  · simpa [zero_xor] using
      expandLevelNothreads_spec (Nat.zero_le (2 ^ level)) (Expanded.zero prg curlevel 0)
  · rename_i hthreads
    refine forChunks_inv (Expanded prg curlevel) (levelThreads_pos _ (by omega))
      (Expanded.zero prg curlevel 0) ?_
    rintro a b s hab - hs
    exact expandLevelNothreads_spec hab hs

/-! ## Correction of an inner level -/

/-- Invariant of the correction of `[0, n)`: the children of `[0, n)` are corrected, the others
are still the PRG outputs. -/
structure Corrected (prg : DPFnode → Bool → NT) (CW : NT) (cfbit : Bool)
    (curlevel : Nat → DPFnode) (size n : Nat) (next : Nat → NT) : Prop where
  done : ∀ j < 2 * n, next j = correctChild prg CW cfbit (curlevel (j / 2)) (j % 2 == 1)
  todo : ∀ j < 2 * size, 2 * n ≤ j → next j = prg (curlevel (j / 2)) (j % 2 == 1)

theorem xorIf_left {prg : DPFnode → Bool → NT} (CW : NT) (cfbit : Bool) (parent : DPFnode) :
    LevelNode.xorIf (prg parent false) CW (getLsb parent) =
      correctChild prg CW cfbit parent false := by
  simp [LevelNode.xorIf_eq, correctChild]

theorem xorIf_right {prg : DPFnode → Bool → NT} (CW : NT) (cfbit : Bool) (parent : DPFnode) :
    LevelNode.xorIf (prg parent true) (LevelNode.xorLsb CW cfbit) (getLsb parent) =
      correctChild prg CW cfbit parent true := by
  simp [LevelNode.xorIf_eq, correctChild]

theorem finalizeNonleafLayerNothreads_spec {prg : DPFnode → Bool → NT} {CW : NT} {cfbit : Bool}
    {curlevel : Nat → DPFnode} {size a b : Nat} (hab : a ≤ b) (hb : b ≤ size) {next : Nat → NT}
    (h : Corrected prg CW cfbit curlevel size a next) :
    Corrected prg CW cfbit curlevel size b
      (finalizeNonleafLayerNothreads a b curlevel CW (LevelNode.xorLsb CW cfbit) next) := by
  refine forRange_inv (fun n next => Corrected prg CW cfbit curlevel size n next) hab h ?_
  intro i next hai hib hi
  have hl : next (2 * i) = prg (curlevel i) false := by
    simpa using hi.todo (2 * i) (by omega) (by omega)
  have hr : next (2 * i + 1) = prg (curlevel i) true := by
    have hdiv : (2 * i + 1) / 2 = i := by omega
    simpa [hdiv] using hi.todo (2 * i + 1) (by omega) (by omega)
  have hdiv : (2 * i + 1) / 2 = i := by omega
  refine ⟨update_children _ _ _ _ _ ?_ ?_ hi.done, fun j hj hij => ?_⟩
  · simp [hl, xorIf_left CW cfbit]
  · simp [hr, hdiv, xorIf_right]
  · rw [Function.update_of_ne (by omega), Function.update_of_ne (by omega)]
    exact hi.todo j hj (by omega)

theorem Corrected.zero {prg : DPFnode → Bool → NT} {CW : NT} {cfbit : Bool}
    {curlevel : Nat → DPFnode} {size : Nat} {s : (Nat → NT) × NT × NT}
    (h : Expanded prg curlevel size s) : Corrected prg CW cfbit curlevel size 0 s.1 :=
  ⟨fun j hj => by omega, fun j hj _ => h.next j hj⟩

theorem finalizeNonleafLayer_spec {prg : DPFnode → Bool → NT} {CW : NT} {cfbit : Bool}
    {curlevel : Nat → DPFnode} (maxNthreads : ℕ+) {level : Nat} {next : Nat → NT}
    (h : Corrected prg CW cfbit curlevel (2 ^ level) 0 next) :
    Corrected prg CW cfbit curlevel (2 ^ level) (2 ^ level)
      (finalizeNonleafLayer maxNthreads level curlevel CW (LevelNode.xorLsb CW cfbit) next) := by
  unfold finalizeNonleafLayer
  split
  · exact finalizeNonleafLayerNothreads_spec (Nat.zero_le _) le_rfl h
  · rename_i hthreads
    refine forChunks_inv (fun n next => Corrected prg CW cfbit curlevel (2 ^ level) n next)
      (levelThreads_pos _ (by omega)) h ?_
    intro a b next hab hb hnext
    exact finalizeNonleafLayerNothreads_spec hab hb hnext

/-! ## Correction of a leaf level -/

/-- Invariant of the correction of the leaves under `[0, n)`: the sums run over their words. -/
structure LeafSummed (prg : DPFnode → Bool → LeafNode WIDTH) (CW : LeafNode WIDTH) (cfbit : Bool)
    (curlevel : Nat → DPFnode) (save : Bool) (size n : Nat) (s : LeafLayer WIDTH) : Prop where
  next : Corrected prg CW cfbit curlevel size (if save then n else 0) s.nextlevel
  low : s.lowSum = ∑ i ∈ Finset.range n,
    (lowWord (correctChild prg CW cfbit (curlevel i) false 0) +
      lowWord (correctChild prg CW cfbit (curlevel i) true 0))
  high : ∀ j, s.highSum j = ∑ i ∈ Finset.range n,
    (scaledWord (correctChild prg CW cfbit (curlevel i) false) j +
      scaledWord (correctChild prg CW cfbit (curlevel i) true) j)
  xor : ∀ j, s.highXor j = xorSum (fun i =>
    scaledWord (correctChild prg CW cfbit (curlevel i) false) j ^^^
      scaledWord (correctChild prg CW cfbit (curlevel i) true) j) n

/-- A thread's share of the leaf correction: its sums are those of its own range. -/
theorem finalizeLeafLayerNothreads_spec {prg : DPFnode → Bool → LeafNode WIDTH}
    {CW : LeafNode WIDTH} {cfbit : Bool} {curlevel : Nat → DPFnode} {save : Bool} {size a b : Nat}
    (hab : a ≤ b) (hb : b ≤ size) {s : LeafLayer WIDTH}
    (h : LeafSummed prg CW cfbit curlevel save size a s) :
    let t := finalizeLeafLayerNothreads a b curlevel save CW (LevelNode.xorLsb CW cfbit) s.nextlevel
    LeafSummed prg CW cfbit curlevel save size b
      ⟨t.nextlevel, s.lowSum + t.lowSum, fun j => s.highSum j + t.highSum j,
        fun j => s.highXor j ^^^ t.highXor j⟩ := by
  intro t
  refine forRange_inv (s := ⟨s.nextlevel, 0, 0, 0⟩)
    (fun n (t : LeafLayer WIDTH) => LeafSummed prg CW cfbit curlevel save size n
      ⟨t.nextlevel, s.lowSum + t.lowSum, fun j => s.highSum j + t.highSum j,
        fun j => s.highXor j ^^^ t.highXor j⟩) hab ?_ ?_
  · obtain ⟨hnext, hlow, hhigh, hxor⟩ := h
    exact ⟨hnext, by simpa using hlow, fun j => by simpa using hhigh j,
      fun j => by simpa using hxor j⟩
  · rintro i ⟨next, low, high, xor⟩ - hib hi
    have hdiv : (2 * i + 1) / 2 = i := by omega
    have htodo : (if save then i else 0) ≤ i := by split <;> omega
    have hl : next (2 * i) = prg (curlevel i) false := by
      simpa using hi.next.todo (2 * i) (by omega) (by omega)
    have hr : next (2 * i + 1) = prg (curlevel i) true := by
      simpa [hdiv] using hi.next.todo (2 * i + 1) (by omega) (by omega)
    have hleft : (next (2 * i)).xorIf CW (getLsb (curlevel i)) =
        correctChild prg CW cfbit (curlevel i) false := by
      rw [hl]
      exact xorIf_left CW cfbit _
    have hright : (next (2 * i + 1)).xorIf (LevelNode.xorLsb CW cfbit) (getLsb (curlevel i)) =
        correctChild prg CW cfbit (curlevel i) true := by
      rw [hr]
      exact xorIf_right CW cfbit _
    simp only [hleft, hright]
    refine ⟨?_, ?_, fun j => ?_, fun j => ?_⟩
    · cases save
      · simpa using hi.next
      · have hdone := hi.next.done
        simp only [if_true] at hdone
        refine ⟨update_children _ _ _ _ _ (by simp) (by simp [hdiv]) hdone, fun j hj hij => ?_⟩
        simp only [if_true] at hij ⊢
        rw [Function.update_of_ne (by omega), Function.update_of_ne (by omega)]
        exact hi.next.todo j hj (by simp only [if_true]; omega)
    · rw [Finset.sum_range_succ, ← hi.low]
      exact (add_assoc _ _ _).symm
    · rw [Finset.sum_range_succ, ← hi.high j]
      exact (add_assoc _ _ _).symm
    · rw [xorSum, ← hi.xor j]
      exact (xor_assoc _ _ _).symm

theorem finalizeLeafLayer_spec {prg : DPFnode → Bool → LeafNode WIDTH} {CW : LeafNode WIDTH}
    {cfbit : Bool} {curlevel : Nat → DPFnode} (save : Bool) (maxNthreads : ℕ+) {level : Nat}
    {next : Nat → LeafNode WIDTH} (h : Corrected prg CW cfbit curlevel (2 ^ level) 0 next) :
    LeafSummed prg CW cfbit curlevel save (2 ^ level) (2 ^ level)
      (finalizeLeafLayer maxNthreads level curlevel save CW (LevelNode.xorLsb CW cfbit) next) := by
  have h0 : LeafSummed prg CW cfbit curlevel save (2 ^ level) 0 ⟨next, 0, 0, 0⟩ :=
    ⟨by simpa using h, by simp, fun j => by simp, fun j => rfl⟩
  unfold finalizeLeafLayer
  split
  · have hone := finalizeLeafLayerNothreads_spec (Nat.zero_le _) le_rfl h0
    obtain ⟨hnext, hlow, hhigh, hxor⟩ := hone
    exact ⟨hnext, by simpa using hlow, fun j => by simpa using hhigh j,
      fun j => by simpa using hxor j⟩
  · rename_i hthreads
    refine forChunks_inv (fun n s => LeafSummed prg CW cfbit curlevel save (2 ^ level) n s)
      (levelThreads_pos _ (by omega)) h0 ?_
    intro a b s hab hb hs
    exact finalizeLeafLayerNothreads_spec hab hb hs

/-! ## The joint correction -/

/-- Both parties obtain the same correction word and flag, those of the two levels' sums. -/
theorem levelCorrection_spec (prg : DPFnode → Bool → NT) (nthreads : Player → ℕ+) {level t : Nat}
    {curlevel : Player → Nat → DPFnode} (bsChoice : Player → RegBS)
    (triples : LevelNode.Triples NT)
    (h : PointDiffer (2 ^ level) t (curlevel .p0) (curlevel .p1)) :
    ∃ CW cfbit,
      (∀ p, (levelCorrection prg nthreads level curlevel bsChoice triples p).CW = CW ∧
        (levelCorrection prg nthreads level curlevel bsChoice triples p).cfbit = cfbit ∧
        Corrected prg CW cfbit (curlevel p) (2 ^ level) 0
          (levelCorrection prg nthreads level curlevel bsChoice triples p).expanded) ∧
      PointDiffer (2 ^ (level + 1))
        (2 * t + ((bsChoice .p0).bshare ^^ (bsChoice .p1).bshare).toNat)
        (fun j => correctChild prg CW cfbit (curlevel .p0 (j / 2)) (j % 2 == 1))
        (fun j => correctChild prg CW cfbit (curlevel .p1 (j / 2)) (j % 2 == 1)) := by
  have hexp p := expandLevel_spec prg (nthreads p) level (curlevel p)
  set L : Player → NT := fun p => (expandLevel prg (nthreads p) level (curlevel p)).2.1 with hLdef
  set R : Player → NT := fun p => (expandLevel prg (nthreads p) level (curlevel p)).2.2 with hRdef
  -- off the target both parties expand the same nodes, so only the target's children remain
  have hL : L .p0 ^^^ L .p1 = prg (curlevel .p0 t) false ^^^ prg (curlevel .p1 t) false := by
    simp only [hLdef, (hexp _).left]
    exact xorSum_xor_xorSum h.lt fun i hi hne => by rw [h.off i hi hne]
  have hR : R .p0 ^^^ R .p1 = prg (curlevel .p0 t) true ^^^ prg (curlevel .p1 t) true := by
    simp only [hRdef, (hexp _).right]
    exact xorSum_xor_xorSum h.lt fun i hi hne => by rw [h.off i hi hne]
  set parity : Player → Bool := fun p =>
    (LevelNode.getLsb (L p) ^^ LevelNode.getLsb (R p)) ^^ p.bit with hparity
  set choice := (bsChoice .p0).bshare ^^ (bsChoice .p1).bshare with hchoice
  obtain ⟨CW, hCW⟩ : ∃ CW, CW = if choice then L .p0 ^^^ L .p1
      else LevelNode.xorLsb (R .p0) (parity .p0) ^^^ LevelNode.xorLsb (R .p1) (parity .p1) := ⟨_, rfl⟩
  have hcorr : IsCorrection L R choice CW (parity .p0 ^^ parity .p1) := by
    refine ⟨?_, ?_⟩
    · rw [hCW]
      split
      · rfl
      · rw [LevelNode.xorLsb_xor, xor_comm (R .p0), LevelNode.xorLsb_xor, LevelNode.xorLsb_xorLsb,
          xor_comm (R .p1), Bool.xor_comm]
    · simp only [hparity, LevelNode.getLsb_xor, Player.bit_p0, Player.bit_p1]
      cases LevelNode.getLsb (L .p0) <;> cases LevelNode.getLsb (L .p1) <;>
        cases LevelNode.getLsb (R .p0) <;> cases LevelNode.getLsb (R .p1) <;> rfl
  refine ⟨CW, parity .p0 ^^ parity .p1, fun p => ⟨?_, ?_, Corrected.zero (hexp p)⟩, ?_⟩
  · rw [hCW]
    exact LevelNode.reconstructChoice_eq _ _ _ _ _
  · cases p
    · rfl
    · exact Bool.xor_comm _ _
  · rw [pow_succ, mul_comm]
    exact h.correct hL hR hcorr

/-! ## The low sums and their inverse -/

theorem value_two_pow : (2 : Value) ^ 64 = 0 := by
  have h : ((2 ^ 64 : ℕ) : Value) = 0 := rfl
  exact_mod_cast h

/-- Squaring doubles the precision's exponent step: `1 + 2^(m+1)c` squares to `1 + 2^(m+2)c'`. -/
theorem sq_one_add_two_pow {y : Value} {m : Nat} (h : ∃ c, y = 1 + 2 ^ (m + 1) * c) :
    ∃ c, y * y = 1 + 2 ^ (m + 2) * c := by
  obtain ⟨c, rfl⟩ := h
  exact ⟨c + 2 ^ m * c * c, by ring⟩

theorem odd_value {x : Value} (h : x &&& 1 ≠ 0) : ∃ c, x = 1 + 2 * c := by
  refine ⟨x >>> 1, ?_⟩
  have hodd : x.toNat % 2 = 1 := by
    by_contra hne
    refine h (BitVec.eq_of_toNat_eq ?_)
    show x.toNat &&& 1 = 0
    rw [Nat.and_one_is_mod]
    omega
  bv_omega

/-- The inverse of an odd word: after the round that makes the exponent `2^e - 1`, the product with
`x` is 1 modulo `2^(e+1)`. -/
theorem mul_inverse_of_odd {x : Value} (h : x &&& 1 ≠ 0) : x * inverseValueT x = 1 := by
  have hinv : ∃ c, x * inverseValueT x = 1 + 2 ^ (63 + 1) * c := by
    refine forRange_inv (fun e xe => ∃ c, x * xe = 1 + 2 ^ (e + 1) * c) (by decide) ?_ ?_
    · exact sq_one_add_two_pow (m := 0) (by simpa using odd_value h)
    · rintro e xe - - hxe
      obtain ⟨c, hc⟩ := sq_one_add_two_pow hxe
      exact ⟨c, by rw [← hc]; ring⟩
  obtain ⟨c, hc⟩ := hinv
  rw [hc, value_two_pow, zero_mul, add_zero]

/-- **The inverse**, as a congruence of the numbers that the words are. -/
theorem inverseValueT_modEq {x : Value} (hodd : Odd x.toNat) :
    x.toNat * (inverseValueT x).toNat ≡ 1 [MOD 2 ^ 64] := by
  have hone : x &&& 1 ≠ 0 := by
    intro hzero
    have hbit : x.toNat &&& 1 = 0 := congrArg BitVec.toNat hzero
    rw [Nat.and_one_is_mod, Nat.odd_iff.mp hodd] at hbit
    exact absurd hbit (by decide)
  have hmul := congrArg BitVec.toNat (mul_inverse_of_odd hone)
  rwa [BitVec.toNat_mul] at hmul

/-- The inverse of 3. -/
theorem inverseValueT_modEq_three : (3 : Value).toNat * (inverseValueT 3).toNat ≡ 1 [MOD 2 ^ 64] :=
  inverseValueT_modEq (by decide)

/-- Words whose low bits differ have an odd difference. -/
theorem lowWord_sub_odd {a b : DPFnode} (h : getLsb a ≠ getLsb b) :
    (lowWord a - lowWord b) &&& 1 ≠ 0 := by
  intro hzero
  have hbit : (lowWord a - lowWord b).getLsbD 0 = false := by
    have := congrArg (fun v : Value => v.getLsbD 0) hzero
    simpa using this
  refine h ?_
  have ha : getLsb a = decide ((lowWord a).toNat % 2 = 1) := by
    simp [getLsb, lowWord, BitVec.getLsbD, Nat.testBit_zero]
  have hb : getLsb b = decide ((lowWord b).toNat % 2 = 1) := by
    simp [getLsb, lowWord, BitVec.getLsbD, Nat.testBit_zero]
  rw [BitVec.getLsbD, Nat.testBit_zero] at hbit
  simp only [decide_eq_false_iff_not] at hbit
  rw [ha, hb, decide_eq_decide]
  bv_omega

/-- The children of a level, summed in pairs. -/
theorem sum_pairs (f : Nat → Value) (n : Nat) :
    ∑ i ∈ Finset.range n, (f (2 * i) + f (2 * i + 1)) = ∑ j ∈ Finset.range (2 * n), f j := by
  induction n with
  | zero => rfl
  | succ n ih =>
      rw [Finset.sum_range_succ, ih, Nat.mul_succ, Finset.sum_range_succ, Finset.sum_range_succ,
        add_assoc]

/-- Two sequences that agree off `t` have sums that differ by their values at `t`. -/
theorem sum_sub_sum {R : Type*} [AddCommGroup R] {f g : Nat → R} {n t : Nat} (ht : t < n)
    (h : ∀ i < n, i ≠ t → f i = g i) :
    ∑ i ∈ Finset.range n, f i - ∑ i ∈ Finset.range n, g i = f t - g t := by
  rw [← Finset.sum_sub_distrib]
  refine Finset.sum_eq_single_of_mem t (Finset.mem_range.mpr ht) fun i hi hne => ?_
  rw [h i (Finset.mem_range.mp hi) hne, sub_self]

/-! ## The two kinds of level -/

/-- An inner level as both parties create it. -/
theorem createNodeLevel_spec (prg : PRG WIDTH) (nthreads : Player → ℕ+) {level t : Nat}
    (curlevel : Player → Nat → DPFnode) (bsChoice : Player → RegBS) (triples : NodeSelectTriples)
    (h : PointDiffer (2 ^ level) t (curlevel .p0) (curlevel .p1)) :
    ∃ CW cfbit,
      (∀ p, (createNodeLevel prg nthreads level curlevel bsChoice triples p).2 = (CW, cfbit) ∧
        ∀ j < 2 ^ (level + 1),
          (createNodeLevel prg nthreads level curlevel bsChoice triples p).1 j =
            correctChild prg.node CW cfbit (curlevel p (j / 2)) (j % 2 == 1)) ∧
      PointDiffer (2 ^ (level + 1))
        (2 * t + ((bsChoice .p0).bshare ^^ (bsChoice .p1).bshare).toNat)
        (fun j => correctChild prg.node CW cfbit (curlevel .p0 (j / 2)) (j % 2 == 1))
        (fun j => correctChild prg.node CW cfbit (curlevel .p1 (j / 2)) (j % 2 == 1)) := by
  obtain ⟨CW, cfbit, hboth, hdiffer⟩ :=
    levelCorrection_spec prg.node nthreads bsChoice triples h
  refine ⟨CW, cfbit, fun p => ?_, hdiffer⟩
  obtain ⟨hCW, hcfbit, hexp⟩ := hboth p
  refine ⟨by simp only [createNodeLevel, hCW, hcfbit], fun j hj => ?_⟩
  simp only [createNodeLevel, hCW, hcfbit]
  exact (finalizeNonleafLayer_spec (nthreads p) hexp).done j (by rw [pow_succ] at hj; omega)

/-- What creating a leaf level establishes about the two parties' `LeafInfo`s, where `child p` is
the corrected leaf level of party `p` and `t` the target at that level. -/
structure LeafCreated (prg : PRG WIDTH) (curlevel : Player → Nat → DPFnode) (size t : Nat)
    (save : Bool) (CW : LeafNode WIDTH) (cfbit : Bool) (child : Player → Nat → LeafNode WIDTH)
    (info : Player → LeafInfo WIDTH) : Prop where
  child_eq : ∀ p j, child p j = correctChild prg.leaf CW cfbit (curlevel p (j / 2)) (j % 2 == 1)
  leafCw : ∀ p, (info p).leafCw = CW
  expansion : ∀ p, (info p).expansion = if save then (List.range size).map (child p) else []
  differ : PointDiffer size t (child .p0) (child .p1)
  inverse : (info .p0).unitSumInverse = (info .p1).unitSumInverse
  unit : (lowWord (child .p0 t 0) - lowWord (child .p1 t 0)) * (info .p0).unitSumInverse = 1
  scaledSum : ∀ p j, ((info p).scaledSum j).ashare =
    if Player.bit p then -∑ i ∈ Finset.range size, scaledWord (child p i) j
    else ∑ i ∈ Finset.range size, scaledWord (child p i) j
  scaledXor : ∀ p j, ((info p).scaledXor j).xshare = xorSum (fun i => scaledWord (child p i) j) size

/-- The leaves of a level, XORed in pairs. -/
theorem xorSum_pairs {α : Type*} [XorOp α] [Zero α] [LawfulXor α] (f : Nat → α) (n : Nat) :
    xorSum (fun i => f (2 * i) ^^^ f (2 * i + 1)) n = xorSum f (2 * n) := by
  induction n with
  | zero => rfl
  | succ n ih =>
      rw [xorSum, ih, Nat.mul_succ, xorSum, xorSum, xor_assoc]

/-- The sums over a whole level, leaf by leaf. -/
theorem LeafSummed.total {prg : DPFnode → Bool → LeafNode WIDTH} {CW : LeafNode WIDTH}
    {cfbit : Bool} {curlevel : Nat → DPFnode} {save : Bool} {n : Nat} {s : LeafLayer WIDTH}
    (h : LeafSummed prg CW cfbit curlevel save n n s) {child : Nat → LeafNode WIDTH}
    (hchild : ∀ j, child j = correctChild prg CW cfbit (curlevel (j / 2)) (j % 2 == 1)) :
    s.lowSum = ∑ j ∈ Finset.range (2 * n), lowWord (child j 0) ∧
      (∀ k, s.highSum k = ∑ j ∈ Finset.range (2 * n), scaledWord (child j) k) ∧
      ∀ k, s.highXor k = xorSum (fun j => scaledWord (child j) k) (2 * n) := by
  have hleft i : correctChild prg CW cfbit (curlevel i) false = child (2 * i) := by
    simp [hchild]
  have hright i : correctChild prg CW cfbit (curlevel i) true = child (2 * i + 1) := by
    have hdiv : (2 * i + 1) / 2 = i := by omega
    simp [hchild, hdiv]
  refine ⟨?_, fun k => ?_, fun k => ?_⟩
  · simp only [h.low, hleft, hright]
    exact sum_pairs (fun j => lowWord (child j 0)) n
  · simp only [h.high, hleft, hright]
    exact sum_pairs (fun j => scaledWord (child j) k) n
  · simp only [h.xor, hleft, hright]
    exact xorSum_pairs (fun j => scaledWord (child j) k) n

/-- **A leaf level**: the low sum that the parties exchange is the difference of the target's low
words, hence odd; the assertion holds and its inverse scales the leaves to a unit vector. -/
theorem createLeafLevel_spec (prg : PRG WIDTH) (nthreads : Player → ℕ+) {level t : Nat}
    (curlevel : Player → Nat → DPFnode) (bsChoice : Player → RegBS)
    (triples : Fin (LWIDTH WIDTH) → NodeSelectTriples) (save : Bool)
    (h : PointDiffer (2 ^ level) t (curlevel .p0) (curlevel .p1)) :
    ∃ out CW cfbit child,
      createLeafLevel prg nthreads level curlevel bsChoice triples save = some out ∧
      (∀ p, (out p).2 = cfbit) ∧
      LeafCreated prg curlevel (2 ^ (level + 1))
        (2 * t + ((bsChoice .p0).bshare ^^ (bsChoice .p1).bshare).toNat) save CW cfbit child
        (fun p => (out p).1) := by
  obtain ⟨CW, cfbit, hboth, hdiffer⟩ :=
    levelCorrection_spec prg.leaf nthreads bsChoice triples h
  set t' := 2 * t + ((bsChoice .p0).bshare ^^ (bsChoice .p1).bshare).toNat
  obtain ⟨child, hchild⟩ : ∃ child : Player → Nat → LeafNode WIDTH, ∀ p j,
      child p j = correctChild prg.leaf CW cfbit (curlevel p (j / 2)) (j % 2 == 1) :=
    ⟨_, fun p j => rfl⟩
  simp only [← hchild] at hdiffer
  have hCW p := (hboth p).1
  have hcfbit p := (hboth p).2.1
  obtain ⟨layer, hlayer⟩ : ∃ layer : Player → LeafLayer WIDTH, ∀ p, layer p =
      finalizeLeafLayer (nthreads p) level (curlevel p) save CW (LevelNode.xorLsb CW cfbit)
        (levelCorrection prg.leaf nthreads level curlevel bsChoice triples p).expanded :=
    ⟨_, fun p => rfl⟩
  have hsum p : LeafSummed prg.leaf CW cfbit (curlevel p) save (2 ^ level) (2 ^ level) (layer p) :=
    hlayer p ▸ finalizeLeafLayer_spec save (nthreads p) (hboth p).2.2
  have hsize : 2 * 2 ^ level = 2 ^ (level + 1) := by rw [pow_succ, mul_comm]
  have htotal p := (hsum p).total (hchild p)
  simp only [hsize] at htotal
  -- the exchanged total is the difference at the target
  obtain ⟨total, htot⟩ : ∃ total, total =
    lowWord (child .p0 t' 0) - lowWord (child .p1 t' 0) := ⟨_, rfl⟩
  have hsub : (layer .p0).lowSum + -(layer .p1).lowSum = total := by
    rw [← sub_eq_add_neg, (htotal .p0).1, (htotal .p1).1, htot]
    exact sum_sub_sum hdiffer.lt fun i hi hne => by rw [hdiffer.off i hi hne]
  have hsub' : -(layer .p1).lowSum + (layer .p0).lowSum = total := by rw [add_comm, hsub]
  have hodd : total &&& 1 ≠ 0 := htot ▸ lowWord_sub_odd hdiffer.on
  have hlow p : (if Player.bit p then -(layer p).lowSum else (layer p).lowSum) +
      (if Player.bit p.peer then -(layer p.peer).lowSum else (layer p.peer).lowSum) = total := by
    cases p
    · simpa using hsub
    · simpa using hsub'
  refine ⟨fun p => ((layer p).info p level CW save total, cfbit), CW, cfbit, child, ?_,
    fun p => rfl, ?_⟩
  · simp only [createLeafLevel, hCW, hcfbit, ← hlayer, hlow]
    exact if_pos ⟨hodd, hodd⟩
  · refine ⟨hchild, fun p => rfl, fun p => ?_, hdiffer, rfl, ?_, fun p k => ?_, fun p k => ?_⟩
    · cases save
      · rfl
      · simp only [LeafLayer.info, if_true]
        refine List.map_congr_left fun j hj => ?_
        rw [hchild]
        exact (hsum p).next.done j (by simpa [hsize] using hj)
    · rw [← htot]
      exact mul_inverse_of_odd hodd
    · simp only [LeafLayer.info, (htotal p).2.1 k]
    · exact (htotal p).2.2 k

end Prac
