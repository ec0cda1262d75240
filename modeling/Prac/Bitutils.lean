import Prac.Types
import Mathlib.Algebra.BigOperators.Group.Finset.Basic

/-!
# Bit parities of a node (`bitutils.hpp`)

* `parity`, `parityAbove`, `parityBelow`, `bitAt` — as the source computes them, from the population
  counts of masked 64-bit halves.
* `parity_eq`, `parityAbove_eq`, `parityBelow_eq`, `bitAt_eq` — each is an XOR of bits of the node,
  so that two nodes which differ in one bit (`BitDiffer`) differ in it exactly when that bit is
  counted.
-/

namespace Prac

open Xor

/-- `__builtin_popcountll`. -/
def popcount (w : Value) : Nat := ∑ i ∈ Finset.range 64, (w.getLsbD i).toNat

/-- `parity`. -/
def parity (block : DPFnode) : Bool :=
  ((popcount (lowWord block) ^^^ popcount (highWord block)) &&& 1) ≠ 0

/-- The mask of the bits of a word strictly above `position`. -/
def maskAbove (position : Nat) : Value :=
  let mask := BitVec.twoPow 64 position
  ~~~(mask ||| (mask - 1))

/-- The mask of the bits of a word strictly below `position`. -/
def maskBelow (position : Nat) : Value := BitVec.twoPow 64 position - 1

/-- `parity_above`. -/
def parityAbove (block : DPFnode) (position : Nat) : Bool :=
  if position ≥ 64 then (popcount (highWord block &&& maskAbove (position - 64)) &&& 1) ≠ 0
  else ((popcount (highWord block) + popcount (lowWord block &&& maskAbove position)) &&& 1) ≠ 0

/-- `parity_below`. -/
def parityBelow (block : DPFnode) (position : Nat) : Bool :=
  if position ≥ 64 then
    ((popcount (lowWord block) + popcount (highWord block &&& maskBelow (position - 64))) &&& 1) ≠ 0
  else (popcount (lowWord block &&& maskBelow position) &&& 1) ≠ 0

/-- `bit_at`. -/
def bitAt (block : DPFnode) (position : Nat) : Bool :=
  if position ≥ 64 then highWord block &&& BitVec.twoPow 64 (position - 64) ≠ 0
  else lowWord block &&& BitVec.twoPow 64 position ≠ 0

/-! ## As XORs of bits -/

theorem getLsbD_lowWord (n : DPFnode) {i : Nat} (hi : i < 64) :
    (lowWord n).getLsbD i = n.getLsbD i := by
  simp [lowWord, hi]

theorem getLsbD_highWord (n : DPFnode) {i : Nat} (hi : i < 64) :
    (highWord n).getLsbD i = n.getLsbD (64 + i) := by
  simp [highWord, hi]

theorem getLsbD_maskBelow {position : Nat} (hp : position < 64) (i : Nat) :
    (maskBelow position).getLsbD i = decide (i < position) := by
  have hpow : 2 ^ position < 2 ^ 64 := Nat.pow_lt_pow_right (by decide) hp
  have hnat : (maskBelow position).toNat = 2 ^ position - 1 := by
    have h1 : 1 ≤ 2 ^ position := Nat.one_le_two_pow
    rw [maskBelow, BitVec.toNat_sub, BitVec.toNat_twoPow, Nat.mod_eq_of_lt hpow]
    show (2 ^ 64 - 1 + 2 ^ position) % 2 ^ 64 = _
    omega
  rw [BitVec.getLsbD, hnat, Nat.testBit_two_pow_sub_one]

theorem getLsbD_maskAbove {position i : Nat} (hp : position < 64) (hi : i < 64) :
    (maskAbove position).getLsbD i = decide (position < i) := by
  have hbelow := getLsbD_maskBelow hp i
  rw [maskBelow] at hbelow
  simp only [maskAbove, BitVec.getLsbD_not, BitVec.getLsbD_or, BitVec.getLsbD_twoPow, hbelow]
  rcases Nat.lt_trichotomy i position with h | h | h
  · simp [hi, h, Nat.not_lt.mpr h.le, Nat.ne_of_gt h]
  · simp [h]
  · simp [hi, h, Nat.not_lt.mpr h.le, Nat.ne_of_lt h]

theorem add_mod_two_eq (a b : Nat) :
    decide ((a + b) % 2 = 1) = (decide (a % 2 = 1) ^^ decide (b % 2 = 1)) := by
  rcases Nat.mod_two_eq_zero_or_one a with ha | ha <;>
    rcases Nat.mod_two_eq_zero_or_one b with hb | hb <;> simp [Nat.add_mod, ha, hb]

/-- The parity of a population count is the XOR of the bits. -/
theorem popcount_parity (w : Value) :
    decide (popcount w % 2 = 1) = xorSum (fun i => w.getLsbD i) 64 := by
  have h n : decide ((∑ i ∈ Finset.range n, (w.getLsbD i).toNat) % 2 = 1) =
      xorSum (fun i => w.getLsbD i) n := by
    induction n with
    | zero => rfl
    | succ n ih =>
        rw [Finset.sum_range_succ, add_mod_two_eq, ih, xorSum]
        cases w.getLsbD n <;> rfl
  exact h 64

theorem and_one_ne_zero (n : Nat) : decide (n &&& 1 ≠ 0) = decide (n % 2 = 1) := by
  rw [Nat.and_one_is_mod]
  rcases Nat.mod_two_eq_zero_or_one n with h | h <;> simp [h]

/-- The XOR of the bits of the two halves that satisfy `P`. -/
theorem xorSum_halves (block : DPFnode) (P : Nat → Bool) :
    xorSum (fun i => block.getLsbD i && P i) 128 =
      (xorSum (fun i => (lowWord block).getLsbD i && P i) 64 ^^
        xorSum (fun i => (highWord block).getLsbD i && P (64 + i)) 64) := by
  refine (xorSum_add (fun i => block.getLsbD i && P i) 64 64).trans (congrArg₂ Bool.xor ?_ ?_)
  · exact xorSum_congr fun i hi => by rw [getLsbD_lowWord block hi]
  · exact xorSum_congr fun i hi => by rw [getLsbD_highWord block hi]

theorem xorSum_false (n : Nat) : xorSum (fun _ => false) n = false := by
  induction n with
  | zero => rfl
  | succ n ih => rw [xorSum, ih, bool_xor, Bool.xor_false]

theorem parity_eq (block : DPFnode) : parity block = xorSum (fun i => block.getLsbD i) 128 := by
  have hxor (a b : Nat) : decide ((a ^^^ b) % 2 = 1) = decide ((a + b) % 2 = 1) := by
    rw [← Nat.testBit_zero, Nat.testBit_xor, Nat.testBit_zero, Nat.testBit_zero, add_mod_two_eq]
  have hhalves := xorSum_halves block fun _ => true
  simp only [Bool.and_true] at hhalves
  rw [parity, and_one_ne_zero, hxor, add_mod_two_eq, popcount_parity, popcount_parity, hhalves]

theorem parityAbove_eq (block : DPFnode) {position : Nat} (hp : position < 128) :
    parityAbove block position =
      xorSum (fun i => block.getLsbD i && decide (position < i)) 128 := by
  rw [xorSum_halves]
  unfold parityAbove
  split
  · rename_i hge
    have hlow : xorSum (fun i => (lowWord block).getLsbD i && decide (position < i)) 64 = false := by
      rw [← xorSum_false 64]
      exact xorSum_congr fun i hi => by rw [decide_eq_false (by omega), Bool.and_false]
    rw [and_one_ne_zero, popcount_parity, hlow, Bool.false_xor]
    refine xorSum_congr fun i hi => ?_
    have hiff : position - 64 < i ↔ position < 64 + i := by omega
    rw [BitVec.getLsbD_and, getLsbD_maskAbove (by omega) hi, decide_eq_decide.mpr hiff]
  · rename_i hlt
    rw [and_one_ne_zero, add_mod_two_eq, popcount_parity, popcount_parity, Bool.xor_comm]
    refine congrArg₂ Bool.xor ?_ ?_
    · refine xorSum_congr fun i hi => ?_
      rw [BitVec.getLsbD_and, getLsbD_maskAbove (by omega) hi]
    · exact xorSum_congr fun i hi => by rw [decide_eq_true (by omega), Bool.and_true]

theorem parityBelow_eq (block : DPFnode) {position : Nat} (hp : position < 128) :
    parityBelow block position =
      xorSum (fun i => block.getLsbD i && decide (i < position)) 128 := by
  rw [xorSum_halves]
  unfold parityBelow
  split
  · rename_i hge
    rw [and_one_ne_zero, add_mod_two_eq, popcount_parity, popcount_parity]
    refine congrArg₂ Bool.xor ?_ ?_
    · exact xorSum_congr fun i hi => by rw [decide_eq_true (by omega), Bool.and_true]
    · refine xorSum_congr fun i hi => ?_
      have hiff : i < position - 64 ↔ 64 + i < position := by omega
      rw [BitVec.getLsbD_and, getLsbD_maskBelow (by omega), decide_eq_decide.mpr hiff]
  · rename_i hlt
    have hhigh : xorSum (fun i => (highWord block).getLsbD i && decide (64 + i < position)) 64 =
        false := by
      rw [← xorSum_false 64]
      exact xorSum_congr fun i hi => by rw [decide_eq_false (by omega), Bool.and_false]
    rw [and_one_ne_zero, popcount_parity, hhigh, Bool.xor_false]
    exact xorSum_congr fun i hi => by rw [BitVec.getLsbD_and, getLsbD_maskBelow (by omega)]

theorem and_twoPow_ne_zero (w : Value) {i : Nat} (hi : i < 64) :
    decide (w &&& BitVec.twoPow 64 i ≠ 0) = w.getLsbD i := by
  rw [BitVec.and_twoPow]
  cases w.getLsbD i
  · rfl
  · have hne : BitVec.twoPow 64 i ≠ 0 := by
      intro h
      have := congrArg (fun v : Value => v.getLsbD i) h
      simp [hi] at this
    simpa using hne

theorem bitAt_eq (block : DPFnode) {position : Nat} (hp : position < 128) :
    bitAt block position = block.getLsbD position := by
  unfold bitAt
  split
  · rename_i hge
    rw [and_twoPow_ne_zero _ (by omega), getLsbD_highWord block (by omega)]
    congr 1
    omega
  · rename_i hlt
    rw [and_twoPow_ne_zero _ (by omega), getLsbD_lowWord block (by omega)]

/-! ## Two nodes that differ in one bit -/

/-- Two nodes agree in every bit but `q`. -/
structure BitDiffer (q : Nat) (a b : DPFnode) : Prop where
  lt : q < 128
  off : ∀ i < 128, i ≠ q → a.getLsbD i = b.getLsbD i
  on : a.getLsbD q ≠ b.getLsbD q

namespace BitDiffer

variable {q : Nat} {a b : DPFnode}

theorem of_xor (hq : q < 128) (h : a ^^^ b = BitVec.twoPow 128 q) : BitDiffer q a b := by
  have hbit i : (a.getLsbD i ^^ b.getLsbD i) = (decide (q < 128) && decide (q = i)) := by
    rw [← BitVec.getLsbD_xor, h, BitVec.getLsbD_twoPow]
  refine ⟨hq, fun i _ hne => ?_, ?_⟩
  · have hi := hbit i
    rw [decide_eq_false (Ne.symm hne), Bool.and_false] at hi
    simpa using hi
  · have hi := hbit q
    rw [decide_eq_true hq, decide_eq_true rfl] at hi
    simpa using hi

/-- Among the bits that satisfy `P`, the nodes differ exactly if the odd bit does. -/
theorem xorSum (h : BitDiffer q a b) (P : Nat → Bool) :
    (Xor.xorSum (fun i => a.getLsbD i && P i) 128 ^^
      Xor.xorSum (fun i => b.getLsbD i && P i) 128) = P q := by
  have hsum := xorSum_xor_xorSum (f := fun i => a.getLsbD i && P i)
    (g := fun i => b.getLsbD i && P i) h.lt fun i hi hne => by rw [h.off i hi hne]
  rw [← bool_xor, hsum]
  have hon := h.on
  cases ha : a.getLsbD q <;> cases hb : b.getLsbD q <;> simp_all

theorem parity (h : BitDiffer q a b) : (parity a ^^ parity b) = true := by
  have hsum := h.xorSum fun _ => true
  simp only [Bool.and_true] at hsum
  rw [parity_eq, parity_eq, hsum]

theorem parityAbove (h : BitDiffer q a b) {p : Nat} (hp : p < 128) :
    (parityAbove a p ^^ parityAbove b p) = decide (p < q) := by
  rw [parityAbove_eq a hp, parityAbove_eq b hp, h.xorSum fun i => decide (p < i)]

theorem parityBelow (h : BitDiffer q a b) {p : Nat} (hp : p < 128) :
    (parityBelow a p ^^ parityBelow b p) = decide (q < p) := by
  rw [parityBelow_eq a hp, parityBelow_eq b hp, h.xorSum fun i => decide (i < p)]

theorem bitAt (h : BitDiffer q a b) {p : Nat} (hp : p < 128) :
    (bitAt a p ^^ bitAt b p) = decide (p = q) := by
  rw [bitAt_eq a hp, bitAt_eq b hp]
  by_cases hpq : p = q
  · subst hpq
    simpa using h.on
  · rw [h.off p hp hpq, Bool.xor_self, decide_eq_false hpq]

end BitDiffer

end Prac
