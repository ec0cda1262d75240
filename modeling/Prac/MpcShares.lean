import Prac.Mpcops
import Prac.Lib.Bits
import Prac.Lib.Loop

/-!
# Conversion and opening of shares (`mpcops.cpp`)

* `mpcXsToAs` — additive shares from XOR shares: what two words add up to beyond their exclusive or is
  twice their common bits, which are multiplied one by one (`mpcXsToAs_correct`).
* `mpcReconstruct`, `mpcReconstructXS` — a shared word opened to both parties.  The peer's share is received
  in whole bytes and the own share is used whole, so that the value comes out only where the shares allow
  it (`mpcReconstruct_iff`).
-/

namespace Prac

/-! ## XOR shares to additive shares -/

/-- The loop of `mpc_xs_to_as` after `stop` bits: a share of twice the common bits among them. -/
def xsToAsCarry (nbits : Nat) (halves : Nat → HalfTriple) (xs_x : Player → RegXS) (p : Player) (stop : Nat) :
    Value :=
  let as_bitand i := mpcValuemul nbits (halves i) (fun q => ((xs_x q).xshare >>> i) &&& 1) p
  Loop.forRange 0 stop (fun i as_C => as_C + ((as_bitand i).ashare <<< (i + 1))) 0

/-- `mpc_xs_to_as`. -/
def mpcXsToAs (nbits : Nat) (halves : Nat → HalfTriple) (xs_x : Player → RegXS) (p : Player) : RegAS :=
  let mask := maskBits nbits
  let as_C := xsToAsCarry nbits halves xs_x p (nbits - 1)
  ⟨((xs_x p).xshare - as_C) &&& mask⟩

section Conversion

variable {nbits : Nat} (h : nbits ≤ 64)

theorem truncate_eq_natCast (v : Value) : truncate h v = ((v.toNat : Nat) : BitVec nbits) := by
  apply BitVec.eq_of_toNat_eq
  show (v.setWidth nbits).toNat = (BitVec.ofNat nbits v.toNat).toNat
  rw [BitVec.toNat_setWidth, BitVec.toNat_ofNat]

theorem truncate_shiftLeft (v : Value) (n : Nat) : truncate h (v <<< n) = truncate h v * 2 ^ n := by
  have hshift : v <<< n = ((v.toNat * 2 ^ n : Nat) : Value) := by
    apply BitVec.eq_of_toNat_eq
    rw [BitVec.toNat_shiftLeft, Nat.shiftLeft_eq]
    exact (BitVec.toNat_ofNat _ _).symm
  rw [hshift, map_natCast, truncate_eq_natCast]
  push_cast
  rfl

theorem toNat_bit (v : Value) (i : Nat) : ((v >>> i) &&& 1).toNat = (v.toNat.testBit i).toNat := by
  rw [BitVec.toNat_and, BitVec.toNat_ushiftRight, Nat.toNat_testBit, Nat.shiftRight_eq_div_pow]
  exact Nat.and_one_is_mod _

/-- The product of one bit of each share is that bit of their conjunction. -/
theorem truncate_bit_mul_bit (x y : Value) (i : Nat) :
    truncate h (((x >>> i) &&& 1) * ((y >>> i) &&& 1)) =
      (((x.toNat &&& y.toNat) / 2 ^ i % 2 : Nat) : BitVec nbits) := by
  rw [map_mul, truncate_eq_natCast, truncate_eq_natCast, toNat_bit, toNat_bit, ← Nat.toNat_testBit,
    Nat.testBit_and, ← Nat.cast_mul]
  congr 1
  cases x.toNat.testBit i <;> cases y.toNat.testBit i <;> rfl

/-- After `stop` bits the shares add up to twice the common bits below `stop`. -/
theorem xsToAsCarry_eq (halves : Nat → HalfTriple) (xs_x : Player → RegXS) (stop : Nat) :
    truncate h (xsToAsCarry nbits halves xs_x .p0 stop + xsToAsCarry nbits halves xs_x .p1 stop) =
      2 * ((((xs_x .p0).xshare.toNat &&& (xs_x .p1).xshare.toNat) % 2 ^ stop : Nat) : BitVec nbits) := by
  induction stop with
  | zero =>
      rw [pow_zero, Nat.mod_one, Nat.cast_zero, mul_zero]
      exact map_zero (truncate h)
  | succ i ih =>
      have hbit := mpcValuemul_eq h (halves i) fun q => ((xs_x q).xshare >>> i) &&& 1
      rw [truncate_bit_mul_bit, RegAS.ashare_add, map_add] at hbit
      have hsucc (p : Player) : xsToAsCarry nbits halves xs_x p (i + 1) =
          xsToAsCarry nbits halves xs_x p i +
            ((mpcValuemul nbits (halves i) (fun q => ((xs_x q).xshare >>> i) &&& 1) p).ashare <<< (i + 1)) :=
        Loop.forRange_succ (Nat.zero_le i) _ _
      rw [map_add] at ih
      rw [hsucc, hsucc, Nat.mod_pow_succ, map_add, map_add, map_add, truncate_shiftLeft, truncate_shiftLeft]
      push_cast at ih hbit ⊢
      rw [pow_succ]
      linear_combination ih + 2 ^ i * 2 * hbit

/-- The top common bit is worth `2 ^ nbits`. -/
theorem two_mul_natCast_mod (hpos : 1 ≤ nbits) (a : Nat) :
    (2 * ((a % 2 ^ (nbits - 1) : Nat) : BitVec nbits)) = ((2 * a : Nat) : BitVec nbits) := by
  have hzero : ((2 ^ nbits : Nat) : BitVec nbits) = 0 := by
    apply BitVec.eq_of_toNat_eq
    exact (BitVec.toNat_ofNat _ _).trans (Nat.mod_self _)
  have hsplit : 2 * a = 2 * (a % 2 ^ (nbits - 1)) + 2 ^ nbits * (a / 2 ^ (nbits - 1)) := by
    have hpow : 2 ^ nbits = 2 * 2 ^ (nbits - 1) := by rw [← pow_succ', Nat.sub_add_cancel hpos]
    rw [hpow, Nat.mul_assoc, ← Nat.mul_add, Nat.mod_add_div]
  rw [hsplit, Nat.cast_add, Nat.cast_mul (2 ^ nbits), hzero, zero_mul, add_zero, Nat.cast_mul, Nat.cast_ofNat]

end Conversion

/-- The additive shares are of the word that was XOR-shared. -/
theorem mpcXsToAs_correct {nbits : Nat} (hpos : 1 ≤ nbits) (h : nbits ≤ 64) (halves : Nat → HalfTriple)
    (xs_x : Player → RegXS) :
    (mpcXsToAs nbits halves xs_x .p0).combine (mpcXsToAs nbits halves xs_x .p1) nbits =
      (xs_x .p0).combine (xs_x .p1) nbits := by
  refine combine_eq_of_truncate h ?_
  have hcarry := xsToAsCarry_eq h halves xs_x (nbits - 1)
  rw [two_mul_natCast_mod hpos, map_add] at hcarry
  have hsum := congrArg (Nat.cast : Nat → BitVec nbits)
    (Bits.xor_add_two_mul_and (xs_x .p0).xshare.toNat (xs_x .p1).xshare.toNat)
  rw [Nat.cast_add, Nat.cast_add] at hsum
  simp only [mpcXsToAs, RegAS.ashare_add, map_add, map_sub, truncate_and_maskBits]
  rw [truncate_eq_natCast h (xs_x .p0).xshare, truncate_eq_natCast h (xs_x .p1).xshare,
    truncate_eq_natCast h ((xs_x .p0).xshare ^^^ (xs_x .p1).xshare), BitVec.toNat_xor]
  linear_combination -hsum - hcarry

/-- XOR shares of 0x1d5 as a word of ten bits, over garbage above them. -/
theorem mpcXsToAs_correct_ten :
    let halves (i : Nat) := halftriple (fun p => if p.bit then 7 * i else 1000 + i) (12345 * i)
    let xs_x (p : Player) : RegXS := if p.bit then ⟨0xffff0f0⟩ else ⟨0xabcd25⟩
    (mpcXsToAs 10 halves xs_x .p0).combine (mpcXsToAs 10 halves xs_x .p1) 10 = 0x1d5 := by
  intro halves xs_x
  exact (mpcXsToAs_correct (by decide) (by decide) halves xs_x).trans (by decide)

/-! ## Opening a shared word -/

/-- `mpc_reconstruct` on additive shares. -/
def mpcReconstruct (nbits : Nat) (x : Player → RegAS) (p : Player) : Value :=
  let nbytes := bitBytes nbits
  let res : RegAS := ⟨received nbytes (x p.peer).ashare⟩
  (res + x p).ashare

/-- `mpc_reconstruct` on XOR shares. -/
def mpcReconstructXS (nbits : Nat) (x : Player → RegXS) (p : Player) : Value :=
  let nbytes := bitBytes nbits
  let res : RegXS := ⟨received nbytes (x p.peer).xshare⟩
  (res + x p).xshare

/-- Additive shares that `mpc_reconstruct` opens.  Either both fit into the bytes that are sent and add up
without a carry out of `nbits`, or both are negative numbers that do, and their sum loses just the carry that
the missing bytes leave. -/
def OpensAS (nbits : Nat) (x : Player → RegAS) : Prop :=
  let sent := 2 ^ (8 * bitBytes nbits)
  let x0 := (x .p0).ashare.toNat
  let x1 := (x .p1).ashare.toNat
  (x0 < sent ∧ x1 < sent ∧ x0 + x1 < 2 ^ nbits) ∨
    (2 ^ 64 ≤ x0 + sent ∧ 2 ^ 64 ≤ x1 + sent ∧ 2 * 2 ^ 64 ≤ x0 + x1 + sent ∧
      x0 + x1 + sent < 2 * 2 ^ 64 + 2 ^ nbits)

/-- XOR shares that `mpc_reconstruct` opens: both fit into the bytes that are sent, and no more than `nbits`
bits differ. -/
def OpensXS (nbits : Nat) (x : Player → RegXS) : Prop :=
  let sent := 2 ^ (8 * bitBytes nbits)
  (x .p0).xshare.toNat < sent ∧ (x .p1).xshare.toNat < sent ∧
    ((x .p0).xshare ^^^ (x .p1).xshare).toNat < 2 ^ nbits

/-- What a word holds above the bytes sent is nothing or at least one unit, and at most the last unit. -/
theorem high_part {W P x : Nat} (hPW : P ∣ W) (hx : x < W) :
    ∃ high, x = high + x % P ∧ P ∣ high ∧ (high = 0 ∨ P ≤ high) ∧ (high + P = W ∨ high + 2 * P ≤ W) := by
  obtain ⟨units, rfl⟩ := hPW
  have hdiv : x / P < units := Nat.div_lt_of_lt_mul hx
  refine ⟨P * (x / P), (Nat.div_add_mod x P).symm, dvd_mul_right _ _, ?_, ?_⟩
  · obtain hzero | hpos := Nat.eq_zero_or_pos (x / P)
    · exact .inl (by rw [hzero, Nat.mul_zero])
    · exact .inr (Nat.le_mul_of_pos_right P hpos)
  · obtain hlast | hlt := Nat.eq_or_lt_of_le (Nat.succ_le_of_lt hdiv)
    · exact .inl (by rw [← hlast, Nat.mul_succ])
    · have := Nat.mul_le_mul_left P hlt
      exact .inr (by rw [Nat.mul_succ, Nat.mul_succ] at this; omega)

/-- Two words below `W` open to their sum modulo `N`, when each is added whole to the other modulo `P`. -/
theorem opens_iff {W P N x0 x1 : Nat} (hN : 0 < N) (hNP : N ∣ P) (hPW : P ∣ W) (h0 : x0 < W) (h1 : x1 < W) :
    ((x1 % P + x0) % W = (x0 + x1) % N ∧ (x0 % P + x1) % W = (x0 + x1) % N) ↔
      (x0 < P ∧ x1 < P ∧ x0 + x1 < N) ∨
        (W ≤ x0 + P ∧ W ≤ x1 + P ∧ 2 * W ≤ x0 + x1 + P ∧ x0 + x1 + P < 2 * W + N) := by
  have hP : 0 < P := Nat.pos_of_dvd_of_pos hPW (by omega)
  have hle : N ≤ P := Nat.le_of_dvd hP hNP
  obtain ⟨high0, hx0, hdvd0, hlow0, htop0⟩ := high_part hPW h0
  obtain ⟨high1, hx1, hdvd1, hlow1, htop1⟩ := high_part hPW h1
  have hl0 := Nat.mod_lt x0 hP
  have hl1 := Nat.mod_lt x1 hP
  generalize x0 % P = l0 at *
  generalize x1 % P = l1 at *
  have hsum : (x0 + x1) % N = (l0 + l1) % N := by
    obtain ⟨k0, rfl⟩ := hNP.trans hdvd0
    obtain ⟨k1, rfl⟩ := hNP.trans hdvd1
    rw [hx0, hx1, show N * k0 + l0 + (N * k1 + l1) = l0 + l1 + N * (k0 + k1) by ring,
      Nat.add_mul_mod_self_left]
  -- the value and the two results, without remainders
  have hval := Nat.mod_lt (l0 + l1) hN
  have hvalle := Nat.mod_le (l0 + l1) N
  have hsmall (hlt : l0 + l1 < N) : (l0 + l1) % N = l0 + l1 := Nat.mod_eq_of_lt hlt
  have hcarry (hP' : P ≤ l0 + l1) (hlt : l0 + l1 - P < N) : (l0 + l1) % N = l0 + l1 - P := by
    obtain ⟨k, hk⟩ := hNP
    calc (l0 + l1) % N = (l0 + l1 - P + N * k) % N := by rw [← hk, Nat.sub_add_cancel hP']
      _ = (l0 + l1 - P) % N := Nat.add_mul_mod_self_left _ _ _
      _ = l0 + l1 - P := Nat.mod_eq_of_lt hlt
  have hres (s : Nat) (hs : s < 2 * W) : s % W = if s < W then s else s - W := by
    split
    · exact Nat.mod_eq_of_lt ‹_›
    · rw [Nat.mod_eq_sub_mod (by omega), Nat.mod_eq_of_lt (by omega)]
  rw [hsum, hres (l1 + x0) (by omega), hres (l0 + x1) (by omega)]
  generalize (l0 + l1) % N = v at *
  split <;> split <;> omega

theorem bitBytes_le {nbits : Nat} (h : nbits ≤ 64) : 8 * bitBytes nbits ≤ 64 := by
  rw [bitBytes, Nat.shiftRight_eq_div_pow]
  omega

theorem toNat_received {nbits : Nat} (h : nbits ≤ 64) (v : Value) :
    (received (bitBytes nbits) v).toNat = v.toNat % 2 ^ (8 * bitBytes nbits) := by
  rw [received_eq, toNat_and_maskBits (bitBytes_le h), BitVec.toNat_setWidth]

theorem mpcReconstruct_eq_iff {nbits : Nat} (h : nbits ≤ 64) (x : Player → RegAS) :
    (∀ p, mpcReconstruct nbits x p = (x .p0).combine (x .p1) nbits) ↔ OpensAS nbits x := by
  have hopens := opens_iff (Nat.two_pow_pos nbits) (Nat.pow_dvd_pow 2 (le_bitBytes nbits))
    (Nat.pow_dvd_pow 2 (bitBytes_le h)) (x .p0).ashare.isLt (x .p1).ashare.isLt
  have hcombine : ((x .p0).combine (x .p1) nbits).toNat =
      ((x .p0).ashare.toNat + (x .p1).ashare.toNat) % 2 ^ nbits := by
    rw [RegAS.combine, toNat_and_maskBits h, BitVec.toNat_setWidth, BitVec.toNat_add,
      Nat.mod_mod_of_dvd _ (Nat.pow_dvd_pow 2 h)]
  have hres (p : Player) : (mpcReconstruct nbits x p).toNat =
      ((x p.peer).ashare.toNat % 2 ^ (8 * bitBytes nbits) + (x p).ashare.toNat) % 2 ^ 64 := by
    rw [mpcReconstruct, RegAS.ashare_add, BitVec.toNat_add, toNat_received h]
  constructor
  · intro hall
    refine hopens.1 ⟨?_, ?_⟩
    · rw [← hcombine, ← hall .p0, hres]
      rfl
    · rw [← hcombine, ← hall .p1, hres]
      rfl
  · intro hx p
    obtain ⟨h0, h1⟩ := hopens.2 hx
    apply BitVec.eq_of_toNat_eq
    rw [hres, hcombine]
    cases p
    · exact h0
    · exact h1

theorem and_maskBits_eq_self_iff {nbits : Nat} (h : nbits ≤ 64) (v : Value) :
    v &&& maskBits nbits = v ↔ v.toNat < 2 ^ nbits := by
  rw [← BitVec.toNat_inj, toNat_and_maskBits h, BitVec.toNat_setWidth]
  exact ⟨fun heq => heq ▸ Nat.mod_lt _ (Nat.two_pow_pos nbits), Nat.mod_eq_of_lt⟩

theorem mpcReconstructXS_eq_iff {nbits : Nat} (h : nbits ≤ 64) (x : Player → RegXS) :
    (∀ p, mpcReconstructXS nbits x p = (x .p0).combine (x .p1) nbits) ↔ OpensXS nbits x := by
  have hres (p : Player) : mpcReconstructXS nbits x p =
      ((x p.peer).xshare &&& maskBits (8 * bitBytes nbits)) ^^^ (x p).xshare := by
    rw [mpcReconstructXS, RegXS.xshare_add, received_eq]
  simp only [OpensXS]
  rw [← and_maskBits_eq_self_iff (bitBytes_le h), ← and_maskBits_eq_self_iff (bitBytes_le h),
    ← and_maskBits_eq_self_iff h]
  constructor
  · intro hall
    have hsent (u v w : Value) (heq : (u &&& maskBits (8 * bitBytes nbits)) ^^^ v = w &&& maskBits nbits) :
        v &&& maskBits (8 * bitBytes nbits) = v := by
      have hv : v = (u &&& maskBits (8 * bitBytes nbits)) ^^^ (w &&& maskBits nbits) := by
        rw [← heq, xor_cancel_left]
      rw [hv, xor_and_maskBits, BitVec.and_assoc, BitVec.and_self, ← received_eq (bitBytes nbits) (w &&& _),
        received_and_maskBits]
    have h0 := (hres .p0).symm.trans (hall .p0)
    have h1 := (hres .p1).symm.trans (hall .p1)
    have hx0 := hsent _ _ _ h0
    have hx1 := hsent _ _ _ h1
    rw [Player.peer_p0, hx1, BitVec.xor_comm] at h0
    exact ⟨hx0, hx1, h0.symm⟩
  · rintro ⟨h0, h1, hxor⟩ p
    rw [hres, RegXS.combine, hxor]
    cases p
    · rw [Player.peer_p0, h1, BitVec.xor_comm]
    · rw [Player.peer_p1, h0]

/-- Both parties get the value that was shared, modulo `2 ^ nbits`, from exactly these shares. -/
theorem mpcReconstruct_iff {nbits : Nat} (h : nbits ≤ 64) :
    (∀ x : Player → RegAS,
        (∀ p, mpcReconstruct nbits x p = (x .p0).combine (x .p1) nbits) ↔ OpensAS nbits x) ∧
      ∀ x : Player → RegXS,
        (∀ p, mpcReconstructXS nbits x p = (x .p0).combine (x .p1) nbits) ↔ OpensXS nbits x :=
  ⟨mpcReconstruct_eq_iff h, mpcReconstructXS_eq_iff h⟩

/-- Shares 5 and 6 of 11 modulo `2 ^ 9`. -/
theorem mpcReconstruct_iff_nine :
    mpcReconstruct 9 (fun q => if q.bit then ⟨6⟩ else ⟨5⟩) .p0 = 11 ∧
      mpcReconstruct 9 (fun q => if q.bit then ⟨6⟩ else ⟨5⟩) .p1 = 11 := by
  have hopen : ∀ p, mpcReconstruct 9 (fun q => if q.bit then ⟨6⟩ else ⟨5⟩) p = 11 :=
    ((mpcReconstruct_iff (show 9 ≤ 64 by decide)).1 _).2 (.inl (by decide))
  exact ⟨hopen .p0, hopen .p1⟩

/-- Shares 200 and 100 of 44 modulo `2 ^ 8` open to 300, and shares -1 and 45 of it open to 44 and to 300. -/
theorem mpcReconstruct_carries :
    let x (q : Player) : RegAS := if q.bit then ⟨100⟩ else ⟨200⟩
    let y (q : Player) : RegAS := if q.bit then ⟨45⟩ else ⟨-1⟩
    ((x .p0).combine (x .p1) 8 = 44 ∧ mpcReconstruct 8 x .p0 = 300 ∧ mpcReconstruct 8 x .p1 = 300) ∧
      (y .p0).combine (y .p1) 8 = 44 ∧ mpcReconstruct 8 y .p0 = 44 ∧ mpcReconstruct 8 y .p1 = 300 := by
  decide

end Prac
