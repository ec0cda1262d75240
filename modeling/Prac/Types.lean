import Mathlib.Data.BitVec
import Mathlib.Algebra.Ring.Defs
import Prac.Lib.Xor

/-!
# Share registers and 128-bit nodes (`types.hpp`, `bitutils.hpp`)

* `RegAS`, `RegXS`, `RegBS` — one party's share of a word (additive or XOR) or of a bit.  For
  `RegXS` the source reads `+` and `-` as XOR and `*` as AND, so both word registers are
  commutative rings; `mulshare` is their multiplication.
* `combine` — reconstruction of a shared word from the two computational parties' shares.
* `DPFnode` — a 128-bit DPF node, with the low (flag) bit operations of `bitutils.hpp`.
* `Player` — the two computational parties.  A value held by both is a function of the player.
-/

namespace Prac

/-- `value_t`. -/
abbrev Value := BitVec 64

/-- The computational parties P0 and P1. -/
inductive Player where
  | p0
  | p1
  deriving DecidableEq, Repr

/-- The other computational party. -/
def Player.peer : Player → Player
  | .p0 => .p1
  | .p1 => .p0

/-- `!!player`. -/
def Player.bit : Player → Bool
  | .p0 => false
  | .p1 => true

@[simp] theorem Player.peer_p0 : Player.p0.peer = .p1 := rfl
@[simp] theorem Player.peer_p1 : Player.p1.peer = .p0 := rfl
@[simp] theorem Player.bit_p0 : Player.p0.bit = false := rfl
@[simp] theorem Player.bit_p1 : Player.p1.bit = true := rfl

/-! ## Additive registers -/

/-- An additive share of a word. -/
@[ext] structure RegAS where
  ashare : Value
  deriving DecidableEq, Repr

namespace RegAS

instance : Zero RegAS := ⟨⟨0⟩⟩
instance : One RegAS := ⟨⟨1⟩⟩
instance : Add RegAS := ⟨fun a b => ⟨a.ashare + b.ashare⟩⟩
instance : Neg RegAS := ⟨fun a => ⟨-a.ashare⟩⟩
instance : Sub RegAS := ⟨fun a b => ⟨a.ashare - b.ashare⟩⟩
/-- `mulshare`: multiplication by the local share of the argument. -/
instance : Mul RegAS := ⟨fun a b => ⟨a.ashare * b.ashare⟩⟩

@[simp] theorem ashare_zero : (0 : RegAS).ashare = 0 := rfl
@[simp] theorem ashare_one : (1 : RegAS).ashare = 1 := rfl
@[simp] theorem ashare_add (a b : RegAS) : (a + b).ashare = a.ashare + b.ashare := rfl
@[simp] theorem ashare_neg (a : RegAS) : (-a).ashare = -a.ashare := rfl
@[simp] theorem ashare_sub (a b : RegAS) : (a - b).ashare = a.ashare - b.ashare := rfl
@[simp] theorem ashare_mul (a b : RegAS) : (a * b).ashare = a.ashare * b.ashare := rfl

instance : CommRing RegAS where
  add_assoc a b c := by ext1; simp [add_assoc]
  zero_add a := by ext1; simp
  add_zero a := by ext1; simp
  add_comm a b := by ext1; simp [add_comm]
  mul_assoc a b c := by ext1; simp [mul_assoc]
  one_mul a := by ext1; simp
  mul_one a := by ext1; simp
  mul_comm a b := by ext1; simp [mul_comm]
  zero_mul a := by ext1; simp
  mul_zero a := by ext1; simp
  left_distrib a b c := by ext1; simp [mul_add]
  right_distrib a b c := by ext1; simp [add_mul]
  neg_add_cancel a := by ext1; simp
  sub_eq_add_neg a b := by ext1; simp [sub_eq_add_neg]
  nsmul := nsmulRec
  zsmul := zsmulRec

end RegAS

/-! ## XOR registers -/

/-- An XOR share of a bit. -/
@[ext] structure RegBS where
  bshare : Bool
  deriving DecidableEq, Repr

/-- An XOR share of a word. -/
@[ext] structure RegXS where
  xshare : Value
  deriving DecidableEq, Repr

namespace RegXS

instance : Zero RegXS := ⟨⟨0⟩⟩
instance : One RegXS := ⟨⟨BitVec.allOnes 64⟩⟩
instance : Add RegXS := ⟨fun a b => ⟨a.xshare ^^^ b.xshare⟩⟩
instance : Neg RegXS := ⟨fun a => a⟩
instance : Sub RegXS := ⟨fun a b => ⟨a.xshare ^^^ b.xshare⟩⟩
/-- `mulshare`: bitwise AND with the local share of the argument. -/
instance : Mul RegXS := ⟨fun a b => ⟨a.xshare &&& b.xshare⟩⟩

@[simp] theorem xshare_zero : (0 : RegXS).xshare = 0 := rfl
@[simp] theorem xshare_one : (1 : RegXS).xshare = BitVec.allOnes 64 := rfl
@[simp] theorem xshare_add (a b : RegXS) : (a + b).xshare = a.xshare ^^^ b.xshare := rfl
@[simp] theorem xshare_neg (a : RegXS) : (-a).xshare = a.xshare := rfl
@[simp] theorem xshare_sub (a b : RegXS) : (a - b).xshare = a.xshare ^^^ b.xshare := rfl
@[simp] theorem xshare_mul (a b : RegXS) : (a * b).xshare = a.xshare &&& b.xshare := rfl

instance : CommRing RegXS where
  add_assoc a b c := by ext1; simp [BitVec.xor_assoc]
  zero_add a := by ext1; simp
  add_zero a := by ext1; simp
  add_comm a b := by ext1; simp [BitVec.xor_comm]
  mul_assoc a b c := by ext1; simp [BitVec.and_assoc]
  one_mul a := by ext1; exact BitVec.allOnes_and
  mul_one a := by ext1; exact BitVec.and_allOnes
  mul_comm a b := by ext1; simp [BitVec.and_comm]
  zero_mul a := by ext1; simp
  mul_zero a := by ext1; simp
  left_distrib a b c := by ext i; simp [Bool.and_xor_distrib_left]
  right_distrib a b c := by ext i; simp [Bool.and_xor_distrib_right]
  neg_add_cancel a := by ext1; simp
  sub_eq_add_neg a b := by ext1; simp
  nsmul := nsmulRec
  zsmul := zsmulRec

/-- `RegXS(const RegBS &b)`: a bit share extended to the all-ones or all-zeros word. -/
def ofBS (b : RegBS) : RegXS := ⟨if b.bshare then BitVec.allOnes 64 else 0⟩

/-- `bit`: the share of one bit of the register. -/
def bit (x : RegXS) (bitnum : Nat) : RegBS := ⟨x.xshare.getLsbD bitnum⟩

theorem ofBS_xor (a b : Bool) : ofBS ⟨a⟩ + ofBS ⟨b⟩ = ofBS ⟨a ^^ b⟩ := by
  cases a <;> cases b <;> rfl

end RegXS

/-- `MASKBITS`. -/
def maskBits (nbits : Nat) : Value :=
  if nbits < 64 then (1 : Value) <<< nbits - 1 else BitVec.allOnes 64

/-- `combine` on additive shares. -/
def RegAS.combine (a b : RegAS) (nbits : Nat := 64) : Value := (a.ashare + b.ashare) &&& maskBits nbits

/-- `combine` on XOR shares. -/
def RegXS.combine (a b : RegXS) (nbits : Nat := 64) : Value := (a.xshare ^^^ b.xshare) &&& maskBits nbits

/-- The masked word is the word truncated to `depth` bits. -/
theorem toNat_and_maskBits {depth : Nat} (h : depth ≤ 64) (v : Value) :
    (v &&& maskBits depth).toNat = (v.setWidth depth).toNat := by
  rw [BitVec.toNat_and, BitVec.toNat_setWidth, maskBits]
  split
  · rename_i hlt
    have hpow : 2 ^ depth < 2 ^ 64 := Nat.pow_lt_pow_right (by decide) hlt
    have hmask : ((1 : Value) <<< depth - 1).toNat = 2 ^ depth - 1 := by
      have h1 : 1 ≤ 2 ^ depth := Nat.one_le_two_pow
      rw [BitVec.toNat_sub, BitVec.toNat_shiftLeft]
      show (2 ^ 64 - 1 + (1 <<< depth) % 2 ^ 64) % 2 ^ 64 = _
      rw [Nat.one_shiftLeft, Nat.mod_eq_of_lt hpow]
      omega
    rw [hmask, Nat.and_two_pow_sub_one_eq_mod]
  · obtain rfl : depth = 64 := by omega
    rw [BitVec.toNat_allOnes, Nat.and_two_pow_sub_one_eq_mod]

theorem and_maskBits_of_lt {nbits : Nat} (h : nbits ≤ 64) {v : Value} (hv : v.toNat < 2 ^ nbits) :
    v &&& maskBits nbits = v := by
  apply BitVec.eq_of_toNat_eq
  rw [toNat_and_maskBits h, BitVec.toNat_setWidth]
  exact Nat.mod_eq_of_lt hv

theorem getLsbD_maskBits (nbits i : Nat) :
    (maskBits nbits).getLsbD i = (decide (i < 64) && decide (i < nbits)) := by
  by_cases hi : i < 64
  · have hle : min nbits 64 ≤ 64 := Nat.min_le_right _ _
    have hmask : maskBits nbits = maskBits (min nbits 64) := by
      unfold maskBits
      by_cases hlt : nbits < 64
      · rw [Nat.min_eq_left hlt.le]
      · rw [Nat.min_eq_right (not_lt.1 hlt), if_neg hlt, if_neg (lt_irrefl 64)]
    have hnat := toNat_and_maskBits hle (BitVec.allOnes 64)
    rw [BitVec.allOnes_and] at hnat
    rw [hmask, BitVec.getLsbD, hnat, ← BitVec.getLsbD, BitVec.getLsbD_setWidth, BitVec.getLsbD_allOnes]
    simp [hi]
  · rw [BitVec.getLsbD_of_ge _ _ (not_lt.1 hi), decide_eq_false hi, Bool.false_and]

theorem and_maskBits_64 (v : Value) : v &&& maskBits 64 = v := by
  unfold maskBits
  rw [if_neg (by decide)]
  exact BitVec.and_allOnes

/-- `BITBYTES`. -/
def bitBytes (nbits : Nat) : Nat := (nbits + 7) >>> 3

theorem le_bitBytes (nbits : Nat) : nbits ≤ 8 * bitBytes nbits := by
  rw [bitBytes, Nat.shiftRight_eq_div_pow]
  omega

/-! ## DPF nodes -/

/-- `DPFnode`: a 128-bit node whose low bit is the flag. -/
abbrev DPFnode := BitVec 128

/-- `lsb128_mask[b]` for `b` 0 or 1. -/
def lsb128Mask (b : Bool) : DPFnode := if b then 1 else 0

/-- `get_lsb`. -/
def getLsb (n : DPFnode) : Bool := n.getLsbD 0

/-- `set_lsb`. -/
def setLsb (n : DPFnode) (b : Bool) : DPFnode := (n &&& ~~~(1 : DPFnode)) ||| lsb128Mask b

/-- `if128_mask`. -/
def if128Mask (b : Bool) : DPFnode := if b then BitVec.allOnes 128 else 0

/-- `xor_lsb`. -/
def xorLsb (n : DPFnode) (b : Bool) : DPFnode := n ^^^ lsb128Mask b

/-- `xor_if`. -/
def xorIf (block1 block2 : DPFnode) (flag : Bool) : DPFnode := block1 ^^^ (block2 &&& if128Mask flag)

/-- The low 64-bit word, `_mm_cvtsi128_si64x(n)`. -/
def lowWord (n : DPFnode) : Value := n.setWidth 64

/-- The high 64-bit word, `_mm_cvtsi128_si64x(_mm_srli_si128(n,8))`. -/
def highWord (n : DPFnode) : Value := (n >>> 64).setWidth 64

@[simp] theorem getLsb_xor (a b : DPFnode) : getLsb (a ^^^ b) = (getLsb a ^^ getLsb b) := by
  simp [getLsb]

@[simp] theorem getLsb_lsb128Mask (b : Bool) : getLsb (lsb128Mask b) = b := by
  cases b <;> decide

@[simp] theorem getLsb_xorLsb (n : DPFnode) (b : Bool) : getLsb (xorLsb n b) = (getLsb n ^^ b) := by
  simp [xorLsb]

theorem xorLsb_false (n : DPFnode) : xorLsb n false = n := by
  simp [xorLsb, lsb128Mask]

theorem xorLsb_xorLsb (n : DPFnode) (b c : Bool) : xorLsb (xorLsb n b) c = xorLsb n (b ^^ c) := by
  cases b <;> cases c <;> simp [xorLsb, lsb128Mask]

@[simp] theorem getLsb_setLsb (n : DPFnode) (b : Bool) : getLsb (setLsb n b) = b := by
  cases b <;> simp [getLsb, setLsb, lsb128Mask]

theorem if128Mask_and (b : Bool) (n : DPFnode) : if128Mask b &&& n = if b then n else 0 := by
  cases b
  · exact BitVec.zero_and
  · exact BitVec.allOnes_and

@[simp] theorem xorIf_false (a b : DPFnode) : xorIf a b false = a := by
  simp [xorIf, if128Mask]

@[simp] theorem xorIf_true (a b : DPFnode) : xorIf a b true = a ^^^ b :=
  congrArg (a ^^^ ·) BitVec.and_allOnes

end Prac
