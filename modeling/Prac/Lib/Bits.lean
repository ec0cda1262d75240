import Mathlib.Algebra.BigOperators.Fin
import Mathlib.Data.Nat.Bitwise

/-!
# Bits of a natural number

* `shiftRight_eq_two_mul_add` — a prefix is twice the next shorter prefix plus one bit.
* `testBit_or_shiftLeft` — setting one bit of a flag word.
* `xor_add_two_mul_and` — addition as exclusive or plus the carries.
* `popcount`, `counter_carry`, `counter_carry_strip` — how far the carry of a wrapping counter
  reaches, read off the number of bits that change.
-/

namespace Bits

/-- Shifting one bit less brings in one more bit. -/
theorem shiftRight_eq_two_mul_add (x m : Nat) :
    x >>> m = 2 * (x >>> (m + 1)) + (x.testBit m).toNat := by
  rw [Nat.testBit_eq_decide_div_mod_eq, Nat.shiftRight_succ, ← Nat.shiftRight_eq_div_pow]
  rcases Nat.mod_two_eq_zero_or_one (x >>> m) with h | h
  · simp only [h, zero_ne_one, decide_false, Bool.toNat_false]
    omega
  · simp only [h, decide_true, Bool.toNat_true]
    omega

theorem testBit_eq_beq (x m : Nat) : x.testBit m = ((x >>> m) % 2 == 1) := by
  rw [Nat.testBit_eq_decide_div_mod_eq, ← Nat.shiftRight_eq_div_pow]
  exact (beq_eq_decide _ _).symm

theorem testBit_or_shiftLeft (flags index k : Nat) (b : Bool) :
    (flags ||| (b.toNat <<< index)).testBit k = (flags.testBit k || (decide (k = index) && b)) := by
  rw [Nat.testBit_or, Nat.testBit_shiftLeft]
  congr 1
  by_cases hk : k = index
  · subst hk
    cases b <;> simp
  · rcases Nat.lt_or_gt_of_ne hk with hlt | hgt
    · simp [hk, Nat.not_le.mpr hlt]
    · obtain ⟨m, hm⟩ : ∃ m, k - index = m + 1 := ⟨k - index - 1, by omega⟩
      cases b <;> simp [hk, hm, Nat.testBit_succ]

/-! ## Counters -/

/-- The number of set bits among the `n` low bits. -/
def popcount (n x : Nat) : Nat := ∑ i ∈ Finset.range n, (x.testBit i).toNat

theorem testBit_two_mul_add_zero (x : Nat) (b : Bool) : (2 * x + b.toNat).testBit 0 = b := by
  cases b <;> simp [Nat.testBit_zero]

theorem testBit_two_mul_add_succ (x i : Nat) (b : Bool) :
    (2 * x + b.toNat).testBit (i + 1) = x.testBit i := by
  have hdiv : (2 * x + b.toNat) / 2 = x := by
    have := b.toNat_lt
    omega
  rw [Nat.testBit_add_one, hdiv]

theorem two_mul_add_xor (x y : Nat) (b c : Bool) :
    (2 * x + b.toNat) ^^^ (2 * y + c.toNat) = 2 * (x ^^^ y) + (b ^^ c).toNat := by
  apply Nat.eq_of_testBit_eq
  intro i
  cases i with
  | zero => simp only [Nat.testBit_xor, testBit_two_mul_add_zero]
  | succ i => simp only [Nat.testBit_xor, testBit_two_mul_add_succ]

theorem two_mul_add_and (x y : Nat) (b c : Bool) :
    (2 * x + b.toNat) &&& (2 * y + c.toNat) = 2 * (x &&& y) + (b && c).toNat := by
  apply Nat.eq_of_testBit_eq
  intro i
  cases i with
  | zero => simp only [Nat.testBit_and, testBit_two_mul_add_zero]
  | succ i => simp only [Nat.testBit_and, testBit_two_mul_add_succ]

/-- A sum is the sum without carries plus the carries. -/
theorem xor_add_two_mul_and (x y : Nat) : (x ^^^ y) + 2 * (x &&& y) = x + y := by
  induction x using Nat.strong_induction_on generalizing y with
  | _ x ih =>
      rcases Nat.eq_zero_or_pos x with rfl | hpos
      · simp
      · obtain ⟨a, b, hx⟩ : ∃ a b, x = 2 * a + Bool.toNat b :=
          ⟨x >>> 1, x.testBit 0, by simpa using shiftRight_eq_two_mul_add x 0⟩
        obtain ⟨c, d, hy⟩ : ∃ c d, y = 2 * c + Bool.toNat d :=
          ⟨y >>> 1, y.testBit 0, by simpa using shiftRight_eq_two_mul_add y 0⟩
        have hlow : (b ^^ d).toNat + 2 * (b && d).toNat = b.toNat + d.toNat := by
          cases b <;> cases d <;> rfl
        have hhigh := ih a (by omega) c
        rw [hx, hy, two_mul_add_xor, two_mul_add_and]
        omega

theorem popcount_two_mul_add (n x : Nat) (b : Bool) :
    popcount (n + 1) (2 * x + b.toNat) = b.toNat + popcount n x := by
  unfold popcount
  rw [Finset.sum_range_succ', testBit_two_mul_add_zero]
  simp only [testBit_two_mul_add_succ]
  exact Nat.add_comm _ _

@[simp] theorem popcount_zero (n : Nat) : popcount n 0 = 0 := by
  simp [popcount]

/-- The bits that change when a `d`-bit counter is advanced: the carry reaches as far as their
number, and leaves zeros behind it. -/
theorem counter_carry {d a n : Nat} (hd : 0 < d) (hn : d ≤ n) (ha : a < 2 ^ d) :
    ∃ k < d, popcount n (((a + 1) % 2 ^ d) ^^^ a) = k + 1 ∧
      (((a + 1) % 2 ^ d) ^^^ a) % 2 = 1 ∧
      ((a + 1) % 2 ^ d) >>> (k + 1) = a >>> (k + 1) ∧
      ∀ j < k, ((a + 1) % 2 ^ d).testBit j = false := by
  induction d generalizing a n with
  | zero => omega
  | succ d ih =>
      obtain ⟨n, rfl⟩ : ∃ m, n = m + 1 := ⟨n - 1, by omega⟩
      have hpow : 2 ^ (d + 1) = 2 * 2 ^ d := by rw [Nat.pow_succ, Nat.mul_comm]
      rcases Nat.even_or_odd' a with ⟨a', rfl | rfl⟩
      · -- no carry out of the low bit
        have hmod : (2 * a' + 1) % 2 ^ (d + 1) = 2 * a' + 1 := Nat.mod_eq_of_lt (by omega)
        have hxor : (2 * a' + 1) ^^^ (2 * a') = 1 := by
          simpa using two_mul_add_xor a' a' true false
        have hone : popcount (n + 1) 1 = 1 := by
          simpa using popcount_two_mul_add n 0 true
        refine ⟨0, Nat.succ_pos d, ?_, ?_, ?_, fun j hj => absurd hj (Nat.not_lt_zero j)⟩
        · rw [hmod, hxor, hone]
        · rw [hmod, hxor]
        · rw [hmod, Nat.shiftRight_eq_div_pow, Nat.shiftRight_eq_div_pow]
          omega
      · -- the low bit is cleared and the carry goes on in the counter without it
        have ha' : a' < 2 ^ d := by omega
        have hmod : (2 * a' + 1 + 1) % 2 ^ (d + 1) = 2 * ((a' + 1) % 2 ^ d) := by
          rw [hpow, show 2 * a' + 1 + 1 = 2 * (a' + 1) by omega, Nat.mul_mod_mul_left]
        have hxor : (2 * ((a' + 1) % 2 ^ d)) ^^^ (2 * a' + 1) =
            2 * (((a' + 1) % 2 ^ d) ^^^ a') + 1 :=
          two_mul_add_xor _ a' false true
        have hpop : popcount (n + 1) (2 * (((a' + 1) % 2 ^ d) ^^^ a') + 1) =
            1 + popcount n (((a' + 1) % 2 ^ d) ^^^ a') :=
          popcount_two_mul_add n _ true
        have hshift (x y k : Nat) (hy : y / 2 = x) : y >>> (k + 1) = x >>> k := by
          rw [Nat.shiftRight_eq_div_pow, Nat.shiftRight_eq_div_pow, Nat.pow_succ', ← hy,
            Nat.div_div_eq_div_mul]
        rcases Nat.eq_zero_or_pos d with rfl | hdpos
        · have h0 : a' = 0 := by omega
          subst h0
          refine ⟨0, Nat.one_pos, ?_, ?_, ?_, fun j hj => absurd hj (Nat.not_lt_zero j)⟩
          · rw [hmod, hxor, hpop]
            simp
          · rw [hmod, hxor]
            omega
          · rw [hmod]
            simp
        · obtain ⟨k, hk, hcount, -, hsame, hzero⟩ := ih (n := n) hdpos (by omega) ha'
          refine ⟨k + 1, by omega, ?_, ?_, ?_, fun j hj => ?_⟩
          · rw [hmod, hxor, hpop, hcount, Nat.add_comm]
          · rw [hmod, hxor]
            omega
          · rw [hmod, hshift ((a' + 1) % 2 ^ d) _ (k + 1) (by omega),
              hshift a' _ (k + 1) (by omega), hsame]
          · rw [hmod]
            cases j with
            | zero => simp [Nat.testBit_zero]
            | succ j =>
                rw [Nat.testBit_add_one, Nat.mul_div_cancel_left _ (by decide : 0 < 2)]
                exact hzero j (by omega)

/-- The same for a counter that may not have been advanced yet, with the low bit left out of the
count. -/
theorem counter_carry_strip {d a m n : Nat} (hd : 0 < d) (hn : d ≤ n) (ha : a < 2 ^ d)
    (hm : m = a ∨ m = (a + 1) % 2 ^ d) :
    popcount n ((m ^^^ a) / 2 * 2) < d ∧
      m >>> (popcount n ((m ^^^ a) / 2 * 2) + 1) = a >>> (popcount n ((m ^^^ a) / 2 * 2) + 1) ∧
      ∀ j < popcount n ((m ^^^ a) / 2 * 2), m.testBit j = false := by
  rcases hm with rfl | rfl
  · simp [hd]
  · obtain ⟨k, hk, hcount, hodd, hsame, hzero⟩ := counter_carry hd hn ha
    have hstrip : popcount n ((((a + 1) % 2 ^ d) ^^^ a) / 2 * 2) = k := by
      obtain ⟨n, rfl⟩ : ∃ l, n = l + 1 := ⟨n - 1, by omega⟩
      have hsplit : (((a + 1) % 2 ^ d) ^^^ a) = 2 * ((((a + 1) % 2 ^ d) ^^^ a) / 2) + 1 := by omega
      have h0 := popcount_two_mul_add n ((((a + 1) % 2 ^ d) ^^^ a) / 2) false
      have h1 := popcount_two_mul_add n ((((a + 1) % 2 ^ d) ^^^ a) / 2) true
      simp only [Bool.toNat_true, Bool.toNat_false, Nat.add_zero, Nat.zero_add] at h0 h1
      rw [← hsplit, hcount] at h1
      rw [Nat.mul_comm, h0]
      omega
    rw [hstrip]
    exact ⟨hk, hsame, hzero⟩

end Bits
