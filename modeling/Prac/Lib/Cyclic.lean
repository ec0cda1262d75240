import Mathlib.Order.Basic
import Mathlib.Data.Nat.Bits

/-!
# Half circles

The numbers below `2 * P` on a circle, seen from a point `s`.

* `Ahead P s t` — `t` lies strictly between `s` and the opposite point `s + P`.
* `ahead_child`, `ahead_block` — how the half circle of a point is made up when every point is
  refined into two, or into 128, consecutive ones.
-/

namespace Cyclic

/-- The distance from `s` up to `t` on a circle of `n` points. -/
def gap (n s t : Nat) : Nat := if s ≤ t then t - s else t + n - s

/-- The point opposite to `s` on a circle of `2 * P` points. -/
def opposite (P s : Nat) : Nat := if s < P then s + P else s - P

/-- `t` lies strictly between `s` and the point opposite to `s`. -/
def Ahead (P s t : Nat) : Prop := 0 < gap (2 * P) s t ∧ gap (2 * P) s t < P

instance (P s t : Nat) : Decidable (Ahead P s t) := inferInstanceAs (Decidable (_ ∧ _))

theorem opposite_lt {P s : Nat} (hs : s < 2 * P) : opposite P s < 2 * P := by
  unfold opposite
  split <;> omega

theorem opposite_child (P s : Nat) (b : Bool) :
    opposite (2 * P) (2 * s + b.toNat) = 2 * opposite P s + b.toNat := by
  have hb := b.toNat_lt
  unfold opposite
  split <;> split <;> omega

/-- No point of a circle of two lies ahead. -/
theorem not_ahead_one (s t : Nat) : ¬ Ahead 1 s t := by
  unfold Ahead
  omega

/-- Refining every point into two: the half circle gains the right sibling of `s`, or the left
sibling of the point opposite to it. -/
theorem ahead_child {P s t : Nat} (hs : s < 2 * P) (ht : t < 2 * P) (b c : Bool) :
    decide (Ahead (2 * P) (2 * s + b.toNat) (2 * t + c.toNat)) =
      (decide (Ahead P s t) ^^
        if b then decide (opposite P s = t) ^^ decide (2 * opposite P s + 1 = 2 * t + c.toNat)
        else decide (s = t) ^^ decide (2 * s = 2 * t + c.toNat)) := by
  unfold Ahead gap opposite
  cases b <;> cases c <;> simp only [Bool.toNat_true, Bool.toNat_false, if_true, Bool.false_eq_true,
    if_false] <;> grind

/-- Refining every point into 128. -/
theorem ahead_block {P s t p q : Nat} (hs : s < 2 * P) (ht : t < 2 * P) (hp : p < 128)
    (hq : q < 128) :
    decide (Ahead (128 * P) (128 * s + p) (128 * t + q)) =
      (decide (Ahead P s t) ^^ (decide (s = t ∧ p < q) ^^ decide (opposite P s = t ∧ q < p))) := by
  unfold Ahead gap opposite
  grind

end Cyclic
