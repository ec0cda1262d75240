import Mathlib.Algebra.Ring.BooleanRing
import Mathlib.Data.BitVec
import Mathlib.Data.LawfulXor.Basic

/-!
# Groups under XOR

* `LawfulXor` for functions and for `Bool`.
* `xorSum` — the XOR of the first `n` values of a sequence, and what is left when two sequences
  that agree off one index are summed together (`xorSum_xor_xorSum`).
-/

namespace Xor

section

variable {ι α : Type*} [XorOp α]

/-- XOR of functions, value by value. -/
instance xorOpPi : XorOp (ι → α) where
  xor f g := fun i => f i ^^^ g i

@[simp] theorem xor_apply (f g : ι → α) (i : ι) : (f ^^^ g) i = f i ^^^ g i := rfl

instance lawfulXorPi [Zero α] [LawfulXor α] : LawfulXor (ι → α) where
  xor_assoc f g h := funext fun i => xor_assoc (f i) (g i) (h i)
  xor_self f := funext fun i => LawfulXor.xor_self (f i)
  xor_zero f := funext fun i => xor_zero (f i)
  xor_comm f g := funext fun i => xor_comm (f i) (g i)

end

instance xorOpBool : XorOp Bool := ⟨Bool.xor⟩

@[simp] theorem bool_xor (a b : Bool) : a ^^^ b = (a ^^ b) := rfl

instance lawfulXorBool : LawfulXor Bool where
  xor_assoc := Bool.xor_assoc
  xor_self := Bool.xor_self
  xor_zero := Bool.xor_false
  xor_comm := Bool.xor_comm

variable {α : Type*} [XorOp α] [Zero α] [LawfulXor α]

theorem xor_left_comm (a b c : α) : a ^^^ (b ^^^ c) = b ^^^ (a ^^^ c) := by
  rw [← xor_assoc, xor_comm a b, xor_assoc]

theorem xor_right_comm (a b c : α) : a ^^^ b ^^^ c = a ^^^ c ^^^ b := by
  rw [xor_assoc, xor_comm b c, ← xor_assoc]

theorem xor_xor_xor_comm (a b c d : α) : (a ^^^ b) ^^^ (c ^^^ d) = (a ^^^ c) ^^^ (b ^^^ d) := by
  rw [xor_assoc, xor_left_comm b, ← xor_assoc]

/-- The XOR of `f 0`, …, `f (n - 1)`. -/
def xorSum (f : Nat → α) : Nat → α
  | 0 => 0
  | n + 1 => xorSum f n ^^^ f n

omit [LawfulXor α] in
theorem xorSum_congr {f g : Nat → α} {n : Nat} (h : ∀ i < n, f i = g i) :
    xorSum f n = xorSum g n := by
  induction n with
  | zero => rfl
  | succ n ih =>
      rw [xorSum, xorSum, ih fun i hi => h i (Nat.lt_succ_of_lt hi), h n (Nat.lt_succ_self n)]

/-- Two sequences that agree off `t` leave their two values at `t`. -/
theorem xorSum_xor_xorSum {f g : Nat → α} {n t : Nat} (ht : t < n)
    (h : ∀ i < n, i ≠ t → f i = g i) : xorSum f n ^^^ xorSum g n = f t ^^^ g t := by
  induction n with
  | zero => omega
  | succ n ih =>
      rw [xorSum, xorSum, xor_xor_xor_comm]
      rcases Nat.lt_succ_iff_lt_or_eq.mp ht with hlt | rfl
      · rw [ih hlt fun i hi => h i (Nat.lt_succ_of_lt hi),
          h n (Nat.lt_succ_self n) (by omega), LawfulXor.xor_self, xor_zero]
      · rw [xorSum_congr fun i hi => h i (Nat.lt_succ_of_lt hi) (by omega), LawfulXor.xor_self, zero_xor]

theorem xorSum_add (f : Nat → α) (m n : Nat) :
    xorSum f (m + n) = xorSum f m ^^^ xorSum (fun i => f (m + i)) n := by
  induction n with
  | zero => exact (xor_zero _).symm
  | succ n ih => rw [← Nat.add_assoc, xorSum, xorSum, ih, xor_assoc]

end Xor
