import Prac.Types
import Mathlib.Algebra.Ring.Hom.Defs
import Mathlib.Tactic.LinearCombination

/-!
# Two-party gadgets (`mpcops.cpp`)

A gadget takes what each computational party holds as a function of the player and returns what
each of them ends up with; a message is the sender's value read at `p.peer`.

* `NodeSelectTriples`, `ValSelectTriple`, `AndTriple`, `BitSelectTriple`, `MultTriple`, `HalfTriple` — what
  P2 deals, each carrying its relation; `multtriple` and the others are the dealers.
* `selectShare` — a party's share of a choice between XOR-shared values.
* `truncate` — words modulo `2 ^ nbits`; a gadget's `_eq` lemma says what its shares add up to there.
* `gadgets_correct` — the gadgets compute their ideal functions.
-/

namespace Prac

/-! ## Messages -/

/-- A word after its first `nbytes` bytes were received over the value it held. -/
def receivedInto (nbytes : Nat) (old v : Value) : Value :=
  (old &&& ~~~maskBits (8 * nbytes)) ||| (v &&& maskBits (8 * nbytes))

/-- The first `nbytes` bytes of a word, received into a variable that was 0. -/
def received (nbytes : Nat) (v : Value) : Value := receivedInto nbytes 0 v

theorem received_eq (nbytes : Nat) (v : Value) : received nbytes v = v &&& maskBits (8 * nbytes) := by
  simp [received, receivedInto]

/-- The bytes of an `nbits`-bit word are enough for its bits. -/
theorem receivedInto_and_maskBits (nbits : Nat) (old v : Value) :
    receivedInto (bitBytes nbits) old v &&& maskBits nbits = v &&& maskBits nbits := by
  have hle := le_bitBytes nbits
  apply BitVec.eq_of_getLsbD_eq
  intro i hi
  simp only [receivedInto, BitVec.getLsbD_and, BitVec.getLsbD_or, BitVec.getLsbD_not, getLsbD_maskBits]
  by_cases hbit : i < nbits
  · simp [hi, hbit, show i < 8 * bitBytes nbits by omega]
  · simp [hbit]

/-- A masked word arrives whole. -/
theorem received_and_maskBits (nbits : Nat) (v : Value) :
    received (bitBytes nbits) (v &&& maskBits nbits) = v &&& maskBits nbits := by
  have hle := le_bitBytes nbits
  rw [received_eq]
  apply BitVec.eq_of_getLsbD_eq
  intro i hi
  simp only [BitVec.getLsbD_and, getLsbD_maskBits]
  by_cases hbit : i < nbits
  · simp [hi, hbit, show i < 8 * bitBytes nbits by omega]
  · simp [hbit]

/-! ## Choices of XOR-shared values -/

/-- A share of `x ^ (f & d)`, from the flag and the difference that the peer sends blinded. -/
def selectShare {w : Nat} (f peer_blind_f : Bool) (d peer_blind_d Y Z x : BitVec w) : BitVec w :=
  (if f then peer_blind_d else 0) ^^^ (if peer_blind_f then Y else 0) ^^^ (if f then d else 0) ^^^ (Z ^^^ x)

theorem selectShare_xor {w : Nat} {X0 X1 : Bool} {Y0 Y1 Z0 Z1 : BitVec w}
    (hvalid : (if X0 then Y1 else 0) ^^^ (if X1 then Y0 else 0) = Z0 ^^^ Z1)
    (f0 f1 : Bool) (d0 d1 x0 x1 : BitVec w) :
    selectShare f0 (f1 ^^ X1) d0 (d1 ^^^ Y1) Y0 Z0 x0 ^^^ selectShare f1 (f0 ^^ X0) d1 (d0 ^^^ Y0) Y1 Z1 x1 =
      (x0 ^^^ x1) ^^^ if f0 ^^ f1 then d0 ^^^ d1 else 0 := by
  obtain rfl : Z1 = Z0 ^^^ ((if X0 then Y1 else 0) ^^^ if X1 then Y0 else 0) := by
    rw [hvalid, xor_cancel_left]
  unfold selectShare
  cases f0 <;> cases f1 <;> cases X0 <;> cases X1 <;>
    simp [xor_assoc, LawfulXor.xor_comm, Xor.xor_left_comm]

/-- The two halves of a `SelectTriple<DPFnode>`: `(X0*Y1) ^ (Y0*X1) = Z0^Z1`. -/
structure NodeSelectTriples where
  X : Player → Bool
  Y : Player → DPFnode
  Z : Player → DPFnode
  valid : (if128Mask (X .p0) &&& Y .p1) ^^^ (if128Mask (X .p1) &&& Y .p0) = Z .p0 ^^^ Z .p1

/-- `request_nodeselecttriples`: P2 draws all but `Z1` and computes that. -/
def requestNodeselecttriples (X : Player → Bool) (Y : Player → DPFnode) (Z0 : DPFnode) :
    NodeSelectTriples where
  X := X
  Y := Y
  Z
    | .p0 => Z0
    | .p1 => ((if128Mask (X .p0) &&& Y .p1) ^^^ (if128Mask (X .p1) &&& Y .p0)) ^^^ Z0
  valid := by
    show _ = Z0 ^^^ (_ ^^^ Z0)
    rw [BitVec.xor_comm _ Z0, xor_cancel_left]

/-- `mpc_reconstruct_choice`. -/
def mpcReconstructChoice (triple : NodeSelectTriples) (f : Player → RegBS)
    (x y : Player → DPFnode) (p : Player) : DPFnode :=
  let fext q := if128Mask (f q).bshare
  let blindF q := (f q).bshare ^^ triple.X q
  let d q := x q ^^^ y q
  let blindD q := d q ^^^ triple.Y q
  let zshare (q : Player) :=
    (fext q &&& blindD q.peer) ^^^ (triple.Y q &&& if128Mask (blindF q.peer)) ^^^
      (fext q &&& d q) ^^^ (triple.Z q ^^^ x q)
  zshare p ^^^ zshare p.peer

/-- Both parties learn `x` or `y` as the shared bit says. -/
theorem mpcReconstructChoice_eq (triple : NodeSelectTriples) (f : Player → RegBS)
    (x y : Player → DPFnode) (p : Player) :
    mpcReconstructChoice triple f x y p =
      if (f .p0).bshare ^^ (f .p1).bshare then y .p0 ^^^ y .p1 else x .p0 ^^^ x .p1 := by
  have hcomm : mpcReconstructChoice triple f x y p = mpcReconstructChoice triple f x y .p0 := by
    cases p
    · rfl
    · exact BitVec.xor_comm _ _
  have hvalid := triple.valid
  rw [if128Mask_and, if128Mask_and] at hvalid
  have hshares := selectShare_xor hvalid (f .p0).bshare (f .p1).bshare (x .p0 ^^^ y .p0)
    (x .p1 ^^^ y .p1) (x .p0) (x .p1)
  rw [hcomm]
  unfold mpcReconstructChoice
  simp only [Player.peer_p0, Player.peer_p1, BitVec.and_comm (triple.Y _), if128Mask_and]
  refine hshares.trans ?_
  cases (f .p0).bshare ^^ (f .p1).bshare
  · simp
  · simp [LawfulXor.xor_comm, Xor.xor_left_comm]

/-- `-value_t(b)`: a bit extended to a word. -/
def extendBit (b : Bool) : Value := -(if b then 1 else 0)

theorem extendBit_and (b : Bool) (v : Value) : extendBit b &&& v = if b then v else 0 := by
  cases b
  · exact BitVec.zero_and
  · exact BitVec.allOnes_and

/-- The two halves of a `SelectTriple<value_t>`. -/
structure ValSelectTriple where
  X : Player → Bool
  Y : Player → Value
  Z : Player → Value
  valid : (extendBit (X .p0) &&& Y .p1) ^^^ (extendBit (X .p1) &&& Y .p0) = Z .p0 ^^^ Z .p1

/-- `MPCTIO::valselecttriple`: P2 draws all but `Z1` and computes that. -/
def valselecttriple (X : Player → Bool) (Y : Player → Value) (Z0 : Value) : ValSelectTriple where
  X := X
  Y := Y
  Z
    | .p0 => Z0
    | .p1 => ((extendBit (X .p0) &&& Y .p1) ^^^ (extendBit (X .p1) &&& Y .p0)) ^^^ Z0
  valid := by
    show _ = Z0 ^^^ (_ ^^^ Z0)
    rw [BitVec.xor_comm _ Z0, xor_cancel_left]

/-- `mpc_select` on XOR shares.  `junk` is what `peer_blind_d` holds before the peer's bytes arrive. -/
def mpcSelectXS (nbits : Nat) (triple : ValSelectTriple) (junk : Player → Value) (f : Player → RegBS)
    (x y : Player → RegXS) (p : Player) : RegXS :=
  let mask := maskBits nbits
  let nbytes := bitBytes nbits
  let fext := extendBit (f p).bshare &&& mask
  let blind_f q := (f q).bshare ^^ triple.X q
  let d q := ((x q).xshare ^^^ (y q).xshare) &&& mask
  let blind_d q := (d q ^^^ triple.Y q) &&& mask
  let peer_blind_d := receivedInto nbytes (junk p) (blind_d p.peer) &&& mask
  let peer_blind_fext := extendBit (blind_f p.peer)
  ⟨((fext &&& peer_blind_d) ^^^ (triple.Y p &&& peer_blind_fext) ^^^ (fext &&& d p) ^^^
    (triple.Z p ^^^ (x p).xshare)) &&& mask⟩

theorem xor_and_maskBits (nbits : Nat) (u v : Value) :
    (u ^^^ v) &&& maskBits nbits = (u &&& maskBits nbits) ^^^ (v &&& maskBits nbits) := by
  ext i
  simp only [BitVec.getElem_and, BitVec.getElem_xor, Bool.and_xor_distrib_right]

/-- The masks inside a share change nothing below the last one. -/
theorem mpcSelectXS_xshare (nbits : Nat) (triple : ValSelectTriple) (junk : Player → Value)
    (f : Player → RegBS) (x y : Player → RegXS) (p : Player) :
    (mpcSelectXS nbits triple junk f x y p).xshare =
      selectShare (f p).bshare ((f p.peer).bshare ^^ triple.X p.peer) ((x p).xshare ^^^ (y p).xshare)
        (((x p.peer).xshare ^^^ (y p.peer).xshare) ^^^ triple.Y p.peer) (triple.Y p) (triple.Z p)
        (x p).xshare &&& maskBits nbits := by
  simp only [mpcSelectXS, selectShare, receivedInto_and_maskBits, BitVec.and_comm (triple.Y p), extendBit_and]
  cases (f p).bshare <;> cases (f p.peer).bshare ^^ triple.X p.peer <;>
    simp [xor_and_maskBits, BitVec.and_assoc, BitVec.and_comm (maskBits nbits)]

/-- The shares of the word chosen. -/
theorem mpcSelectXS_eq (nbits : Nat) (triple : ValSelectTriple) (junk : Player → Value)
    (f : Player → RegBS) (x y : Player → RegXS) :
    (mpcSelectXS nbits triple junk f x y .p0).combine (mpcSelectXS nbits triple junk f x y .p1) nbits =
      (if (f .p0).bshare ^^ (f .p1).bshare then (y .p0).xshare ^^^ (y .p1).xshare
        else (x .p0).xshare ^^^ (x .p1).xshare) &&& maskBits nbits := by
  have hvalid := triple.valid
  rw [extendBit_and, extendBit_and] at hvalid
  have hshares := selectShare_xor hvalid (f .p0).bshare (f .p1).bshare
    ((x .p0).xshare ^^^ (y .p0).xshare) ((x .p1).xshare ^^^ (y .p1).xshare) (x .p0).xshare (x .p1).xshare
  rw [RegXS.combine, mpcSelectXS_xshare, mpcSelectXS_xshare, Player.peer_p0, Player.peer_p1,
    ← xor_and_maskBits, hshares, BitVec.and_assoc, BitVec.and_self]
  congr 1
  cases (f .p0).bshare ^^ (f .p1).bshare
  · simp
  · simp [LawfulXor.xor_comm, Xor.xor_left_comm]

/-! ## Shared bits -/

/-- The two halves of an `AndTriple`: `X0&Y1 ^ Y0&X1 = Z0^Z1`. -/
structure AndTriple where
  X : Player → Value
  Y : Player → Value
  Z : Player → Value
  valid : (X .p0 &&& Y .p1) ^^^ (Y .p0 &&& X .p1) = Z .p0 ^^^ Z .p1

/-- The two halves of a `SelectTriple<bit_t>`. -/
structure BitSelectTriple where
  X : Player → Bool
  Y : Player → Bool
  Z : Player → Bool
  valid : ((X .p0 && Y .p1) ^^ (Y .p0 && X .p1)) = (Z .p0 ^^ Z .p1)

/-- `mpc_and`.  The two blinded bits travel in one byte. -/
def mpcAnd (T : BitSelectTriple) (x y : Player → RegBS) (p : Player) : RegBS :=
  let blind_x q := (x q).bshare ^^ T.X q
  let blind_y q := (y q).bshare ^^ T.Y q
  let v q : BitVec 8 := ((BitVec.ofBool (blind_x q)).setWidth 8 <<< 1) ||| (BitVec.ofBool (blind_y q)).setWidth 8
  let peer_blind_x := (v p.peer >>> 1).getLsbD 0
  let peer_blind_y := (v p.peer).getLsbD 0
  ⟨((x p).bshare && peer_blind_y) ^^ (T.Y p && peer_blind_x) ^^ ((x p).bshare && (y p).bshare) ^^ T.Z p⟩

/-- `mpc_or`, by De Morgan: P0 complements its shares. -/
def mpcOr (T : BitSelectTriple) (x y : Player → RegBS) (p : Player) : RegBS :=
  let notP0 (q : Player) (b : RegBS) : RegBS := if q.bit then b else ⟨!b.bshare⟩
  notP0 p (mpcAnd T (fun q => notP0 q (x q)) (fun q => notP0 q (y q)) p)

/-- `mpc_select` on bit shares. -/
def mpcSelectBS (T : BitSelectTriple) (f x y : Player → RegBS) (p : Player) : RegBS :=
  let z := mpcAnd T f fun q => ⟨(y q).bshare ^^ (x q).bshare⟩
  ⟨(z p).bshare ^^ (x p).bshare⟩

section Bits

variable (T : BitSelectTriple) (f x y : Player → RegBS)

theorem mpcAnd_bshare (p : Player) :
    (mpcAnd T x y p).bshare =
      (((x p).bshare && ((y p.peer).bshare ^^ T.Y p.peer)) ^^ (T.Y p && ((x p.peer).bshare ^^ T.X p.peer)) ^^
        ((x p).bshare && (y p).bshare) ^^ T.Z p) := by
  have hbyte (a b : Bool) :
      ((((BitVec.ofBool a).setWidth 8 <<< 1) ||| (BitVec.ofBool b).setWidth 8) >>> 1).getLsbD 0 = a ∧
        (((BitVec.ofBool a).setWidth 8 <<< 1) ||| (BitVec.ofBool b).setWidth 8).getLsbD 0 = b := by
    cases a <;> cases b <;> decide
  simp only [mpcAnd, hbyte]

/-- The shares of the conjunction. -/
theorem mpcAnd_eq :
    ((mpcAnd T x y .p0).bshare ^^ (mpcAnd T x y .p1).bshare) =
      (((x .p0).bshare ^^ (x .p1).bshare) && ((y .p0).bshare ^^ (y .p1).bshare)) := by
  have hZ1 : T.Z .p1 = (T.Z .p0 ^^ ((T.X .p0 && T.Y .p1) ^^ (T.Y .p0 && T.X .p1))) := by
    rw [T.valid, ← Bool.xor_assoc, Bool.xor_self, Bool.false_xor]
  rw [mpcAnd_bshare, mpcAnd_bshare, Player.peer_p0, Player.peer_p1, hZ1]
  cases (x .p0).bshare <;> cases (x .p1).bshare <;> cases T.Y .p0 <;> cases T.Y .p1 <;>
    simp [Bool.xor_comm, Bool.xor_left_comm]

/-- The shares of the disjunction. -/
theorem mpcOr_eq :
    ((mpcOr T x y .p0).bshare ^^ (mpcOr T x y .p1).bshare) =
      (((x .p0).bshare ^^ (x .p1).bshare) || ((y .p0).bshare ^^ (y .p1).bshare)) := by
  have hand := mpcAnd_eq T (fun q => if q.bit then x q else ⟨!(x q).bshare⟩)
    (fun q => if q.bit then y q else ⟨!(y q).bshare⟩)
  simp only [mpcOr, Player.bit_p0, Player.bit_p1, if_true, if_false, Bool.false_eq_true, Bool.not_xor] at hand ⊢
  rw [hand, ← Bool.not_or, Bool.not_not]

/-- The shares of the bit chosen. -/
theorem mpcSelectBS_eq :
    ((mpcSelectBS T f x y .p0).bshare ^^ (mpcSelectBS T f x y .p1).bshare) =
      if (f .p0).bshare ^^ (f .p1).bshare then (y .p0).bshare ^^ (y .p1).bshare
        else (x .p0).bshare ^^ (x .p1).bshare := by
  have hand := mpcAnd_eq T f fun q => ⟨(y q).bshare ^^ (x q).bshare⟩
  simp only [mpcSelectBS]
  rw [Bool.xor_assoc, Bool.xor_left_comm (x .p0).bshare, ← Bool.xor_assoc, hand]
  cases (f .p0).bshare ^^ (f .p1).bshare
  · simp
  · simp [Bool.xor_left_comm]

end Bits

/-! ## Additively shared words -/

/-- The word modulo `2 ^ nbits`, as a homomorphism of rings. -/
def truncate {nbits : Nat} (h : nbits ≤ 64) : Value →+* BitVec nbits where
  toFun v := v.setWidth nbits
  map_one' := by
    apply BitVec.eq_of_toNat_eq
    rw [BitVec.toNat_setWidth]
    rfl
  map_mul' a b := BitVec.setWidth_mul a b h
  map_zero' := BitVec.setWidth_zero nbits 64
  map_add' a b := BitVec.setWidth_add a b h

theorem truncate_and_maskBits {nbits : Nat} (h : nbits ≤ 64) (v : Value) :
    truncate h (v &&& maskBits nbits) = truncate h v := by
  apply BitVec.eq_of_toNat_eq
  show (BitVec.setWidth nbits (v &&& maskBits nbits)).toNat = (BitVec.setWidth nbits v).toNat
  rw [BitVec.toNat_setWidth, toNat_and_maskBits h, BitVec.toNat_setWidth, Nat.mod_mod]

theorem truncate_64 (v : Value) : truncate (le_refl 64) v = v := BitVec.setWidth_eq v

/-- The two halves of a `MultTriple`: `X0*Y1 + Y0*X1 = Z0+Z1`. -/
structure MultTriple where
  X : Player → Value
  Y : Player → Value
  Z : Player → Value
  valid : X .p0 * Y .p1 + Y .p0 * X .p1 = Z .p0 + Z .p1

/-- `MPCTIO::multtriple`: P2 draws all but `Z1` and computes that. -/
def multtriple (X Y : Player → Value) (Z0 : Value) : MultTriple where
  X := X
  Y := Y
  Z
    | .p0 => Z0
    | .p1 => X .p0 * Y .p1 + X .p1 * Y .p0 - Z0
  valid := by
    show _ = Z0 + (_ - Z0)
    ring

/-- The two halves of a `HalfTriple`, `(X0,Z0)` and `(Y1,Z1)` with `X0*Y1 = Z0+Z1`.  The first components
are under one name. -/
structure HalfTriple where
  X : Player → Value
  Z : Player → Value
  valid : X .p0 * X .p1 = Z .p0 + Z .p1

/-- `MPCTIO::halftriple`. -/
def halftriple (X : Player → Value) (Z0 : Value) : HalfTriple where
  X := X
  Z
    | .p0 => Z0
    | .p1 => X .p0 * X .p1 - Z0
  valid := by
    show _ = Z0 + (_ - Z0)
    ring

/-- `mpc_cross`. -/
def mpcCross (nbits : Nat) (triple : MultTriple) (x y : Player → RegAS) (p : Player) : RegAS :=
  let mask := maskBits nbits
  let nbytes := bitBytes nbits
  let blind_x q := ((x q).ashare + triple.X q) &&& mask
  let blind_y q := ((y q).ashare + triple.Y q) &&& mask
  let peer_blind_x := received nbytes (blind_x p.peer)
  let peer_blind_y := received nbytes (blind_y p.peer)
  ⟨((x p).ashare * peer_blind_y - triple.Y p * peer_blind_x + triple.Z p) &&& mask⟩

/-- `mpc_mul`. -/
def mpcMul (nbits : Nat) (triple : MultTriple) (x y : Player → RegAS) (p : Player) : RegAS :=
  let mask := maskBits nbits
  let z := mpcCross nbits triple x y
  ⟨((z p).ashare + (x p).ashare * (y p).ashare) &&& mask⟩

/-- `mpc_valuemul`.  P0 holds one factor and P1 the other; the parameter is called `x` at both. -/
def mpcValuemul (nbits : Nat) (triple : HalfTriple) (x : Player → Value) (p : Player) : RegAS :=
  let mask := maskBits nbits
  let nbytes := bitBytes nbits
  let blind_x q := (x q + triple.X q) &&& mask
  let peer_blind_y := received nbytes (blind_x p.peer)
  match p with
  | .p0 => ⟨(x p * peer_blind_y + triple.Z p) &&& mask⟩
  | .p1 => ⟨(-triple.X p * peer_blind_y + triple.Z p) &&& mask⟩

/-- `mpc_flagmult`. -/
def mpcFlagmult (nbits : Nat) (triple : MultTriple) (f : Player → RegBS) (y : Player → RegAS)
    (p : Player) : RegAS :=
  let mask := maskBits nbits
  let bs_fval q : Value := if (f q).bshare then 1 else 0
  let z := mpcCross nbits triple (fun q => ⟨(y q).ashare * (1 - 2 * bs_fval q)⟩)
    (fun q => ⟨bs_fval q⟩)
  ⟨((z p).ashare + bs_fval p * (y p).ashare) &&& mask⟩

/-- `mpc_select` on additive shares. -/
def mpcSelect (nbits : Nat) (triple : MultTriple) (f : Player → RegBS) (x y : Player → RegAS)
    (p : Player) : RegAS :=
  let mask := maskBits nbits
  let z := mpcFlagmult nbits triple f fun q => y q - x q
  ⟨((z p).ashare + (x p).ashare) &&& mask⟩

/-- `mpc_oswap`: the new shares of `x` and of `y`. -/
def mpcOswap (nbits : Nat) (triple : MultTriple) (x y : Player → RegAS) (f : Player → RegBS) (p : Player) :
    RegAS × RegAS :=
  let mask := maskBits nbits
  let s := mpcFlagmult nbits triple f fun q => y q - x q
  (⟨((x p).ashare + (s p).ashare) &&& mask⟩, ⟨((y p).ashare - (s p).ashare) &&& mask⟩)

section Gadgets

variable {nbits : Nat} (h : nbits ≤ 64) (triple : MultTriple) (f : Player → RegBS)
  (x y : Player → RegAS)

/-- The shares of the cross product. -/
theorem mpcCross_eq :
    truncate h (mpcCross nbits triple x y .p0 + mpcCross nbits triple x y .p1).ashare =
      truncate h ((x .p0).ashare * (y .p1).ashare + (y .p0).ashare * (x .p1).ashare) := by
  have hvalid := congrArg (truncate h) triple.valid
  simp only [map_add, map_mul] at hvalid
  simp only [mpcCross, RegAS.ashare_add, Player.peer_p0, Player.peer_p1, map_add, map_sub, map_mul,
    received_and_maskBits, truncate_and_maskBits]
  linear_combination -hvalid

/-- The shares of the product. -/
theorem mpcMul_eq :
    truncate h (mpcMul nbits triple x y .p0 + mpcMul nbits triple x y .p1).ashare =
      truncate h ((x .p0 + x .p1) * (y .p0 + y .p1)).ashare := by
  have hcross := mpcCross_eq h triple x y
  simp only [RegAS.ashare_add, map_add, map_mul] at hcross
  simp only [mpcMul, RegAS.ashare_add, RegAS.ashare_mul, map_add, map_mul, truncate_and_maskBits]
  linear_combination hcross

/-- The shares of the product of P0's word and P1's. -/
theorem mpcValuemul_eq (half : HalfTriple) (x : Player → Value) :
    truncate h (mpcValuemul nbits half x .p0 + mpcValuemul nbits half x .p1).ashare =
      truncate h (x .p0 * x .p1) := by
  have hvalid := congrArg (truncate h) half.valid
  simp only [map_add, map_mul] at hvalid
  simp only [mpcValuemul, RegAS.ashare_add, Player.peer_p0, Player.peer_p1, map_add, map_neg, map_mul,
    received_and_maskBits, truncate_and_maskBits]
  linear_combination -hvalid

/-- The shares of the flag times the word. -/
theorem mpcFlagmult_eq :
    truncate h (mpcFlagmult nbits triple f y .p0 + mpcFlagmult nbits triple f y .p1).ashare =
      truncate h (if (f .p0).bshare ^^ (f .p1).bshare then (y .p0 + y .p1).ashare else 0) := by
  have hcross := mpcCross_eq h triple
    (fun q => ⟨(y q).ashare * (1 - 2 * if (f q).bshare then 1 else 0)⟩)
    (fun q => ⟨if (f q).bshare then 1 else 0⟩)
  simp only [RegAS.ashare_add, map_add, map_mul, map_sub] at hcross
  simp only [mpcFlagmult, RegAS.ashare_add, map_add, map_mul, truncate_and_maskBits]
  cases hf0 : (f .p0).bshare <;> cases hf1 : (f .p1).bshare <;>
    simp only [hf0, hf1, if_true, if_false, Bool.false_eq_true, Bool.xor_false, Bool.xor_true,
      Bool.not_true, Bool.not_false, map_zero, map_one, map_ofNat, map_add] at hcross ⊢ <;>
    linear_combination hcross

/-- The shares of the word chosen. -/
theorem mpcSelect_eq :
    truncate h (mpcSelect nbits triple f x y .p0 + mpcSelect nbits triple f x y .p1).ashare =
      truncate h (if (f .p0).bshare ^^ (f .p1).bshare then (y .p0 + y .p1).ashare
        else (x .p0 + x .p1).ashare) := by
  have hflag := mpcFlagmult_eq h triple f (fun q => y q - x q)
  simp only [RegAS.ashare_add, map_add] at hflag
  simp only [mpcSelect, RegAS.ashare_add, map_add, truncate_and_maskBits]
  cases hb : (f .p0).bshare ^^ (f .p1).bshare <;>
    simp only [hb, if_true, if_false, Bool.false_eq_true, map_zero, RegAS.ashare_sub, map_sub,
      map_add] at hflag ⊢ <;>
    linear_combination hflag

/-- The new shares are of the two words, swapped if the flag says so. -/
theorem mpcOswap_eq :
    truncate h ((mpcOswap nbits triple x y f .p0).1 + (mpcOswap nbits triple x y f .p1).1).ashare =
        truncate h (if (f .p0).bshare ^^ (f .p1).bshare then (y .p0 + y .p1).ashare
          else (x .p0 + x .p1).ashare) ∧
      truncate h ((mpcOswap nbits triple x y f .p0).2 + (mpcOswap nbits triple x y f .p1).2).ashare =
        truncate h (if (f .p0).bshare ^^ (f .p1).bshare then (x .p0 + x .p1).ashare
          else (y .p0 + y .p1).ashare) := by
  have hflag := mpcFlagmult_eq h triple f (fun q => y q - x q)
  simp only [RegAS.ashare_add, map_add] at hflag
  simp only [mpcOswap, RegAS.ashare_add, map_add, map_sub, truncate_and_maskBits]
  cases hb : (f .p0).bshare ^^ (f .p1).bshare <;>
    simp only [hb, if_true, if_false, Bool.false_eq_true, map_zero, RegAS.ashare_sub, map_sub,
      map_add] at hflag ⊢
  · exact ⟨by linear_combination hflag, by linear_combination -hflag⟩
  · exact ⟨by linear_combination hflag, by linear_combination -hflag⟩

/-- Words that agree modulo `2 ^ nbits` are the same when masked. -/
theorem combine_eq_of_truncate {a b : RegAS} {v : Value} (hv : truncate h (a + b).ashare = truncate h v) :
    a.combine b nbits = v &&& maskBits nbits := by
  apply BitVec.eq_of_toNat_eq
  rw [RegAS.combine, toNat_and_maskBits h, toNat_and_maskBits h]
  exact congrArg BitVec.toNat hv

end Gadgets

/-- Each gadget computes shares of its ideal function modulo `2 ^ nbits`, whatever the shares hold above
`nbits` and whatever correlated randomness was dealt. -/
theorem gadgets_correct {nbits : Nat} (h : nbits ≤ 64) :
    (∀ triple x y, (mpcMul nbits triple x y .p0).combine (mpcMul nbits triple x y .p1) nbits =
        ((x .p0 + x .p1) * (y .p0 + y .p1)).ashare &&& maskBits nbits) ∧
      (∀ triple x y, (mpcCross nbits triple x y .p0).combine (mpcCross nbits triple x y .p1) nbits =
        ((x .p0).ashare * (y .p1).ashare + (y .p0).ashare * (x .p1).ashare) &&& maskBits nbits) ∧
      (∀ half x, (mpcValuemul nbits half x .p0).combine (mpcValuemul nbits half x .p1) nbits =
        (x .p0 * x .p1) &&& maskBits nbits) ∧
      (∀ triple f y, (mpcFlagmult nbits triple f y .p0).combine (mpcFlagmult nbits triple f y .p1) nbits =
        (if (f .p0).bshare ^^ (f .p1).bshare then (y .p0 + y .p1).ashare else 0) &&& maskBits nbits) ∧
      (∀ triple f x y, (mpcSelect nbits triple f x y .p0).combine (mpcSelect nbits triple f x y .p1) nbits =
        (if (f .p0).bshare ^^ (f .p1).bshare then (y .p0 + y .p1).ashare else (x .p0 + x .p1).ashare) &&&
          maskBits nbits) ∧
      (∀ triple junk f x y, (mpcSelectXS nbits triple junk f x y .p0).combine
          (mpcSelectXS nbits triple junk f x y .p1) nbits =
        (if (f .p0).bshare ^^ (f .p1).bshare then (y .p0).xshare ^^^ (y .p1).xshare
          else (x .p0).xshare ^^^ (x .p1).xshare) &&& maskBits nbits) ∧
      (∀ T f x y, ((mpcSelectBS T f x y .p0).bshare ^^ (mpcSelectBS T f x y .p1).bshare) =
        if (f .p0).bshare ^^ (f .p1).bshare then (y .p0).bshare ^^ (y .p1).bshare
          else (x .p0).bshare ^^ (x .p1).bshare) ∧
      (∀ triple x y f,
        (mpcOswap nbits triple x y f .p0).1.combine (mpcOswap nbits triple x y f .p1).1 nbits =
            (if (f .p0).bshare ^^ (f .p1).bshare then (y .p0 + y .p1).ashare else (x .p0 + x .p1).ashare) &&&
              maskBits nbits ∧
          (mpcOswap nbits triple x y f .p0).2.combine (mpcOswap nbits triple x y f .p1).2 nbits =
            (if (f .p0).bshare ^^ (f .p1).bshare then (x .p0 + x .p1).ashare else (y .p0 + y .p1).ashare) &&&
              maskBits nbits) ∧
      (∀ T x y, ((mpcAnd T x y .p0).bshare ^^ (mpcAnd T x y .p1).bshare) =
        (((x .p0).bshare ^^ (x .p1).bshare) && ((y .p0).bshare ^^ (y .p1).bshare))) ∧
      (∀ T x y, ((mpcOr T x y .p0).bshare ^^ (mpcOr T x y .p1).bshare) =
        (((x .p0).bshare ^^ (x .p1).bshare) || ((y .p0).bshare ^^ (y .p1).bshare))) ∧
      ∀ triple f x y p, mpcReconstructChoice triple f x y p =
        if (f .p0).bshare ^^ (f .p1).bshare then y .p0 ^^^ y .p1 else x .p0 ^^^ x .p1 := by
  refine ⟨fun triple x y => ?_, fun triple x y => ?_, fun half x => ?_, fun triple f y => ?_,
    fun triple f x y => ?_, mpcSelectXS_eq nbits, mpcSelectBS_eq, fun triple x y f => ⟨?_, ?_⟩, mpcAnd_eq,
    mpcOr_eq, mpcReconstructChoice_eq⟩
  · exact combine_eq_of_truncate h (mpcMul_eq h triple x y)
  · exact combine_eq_of_truncate h (mpcCross_eq h triple x y)
  · exact combine_eq_of_truncate h (mpcValuemul_eq h half x)
  · exact combine_eq_of_truncate h (mpcFlagmult_eq h triple f y)
  · exact combine_eq_of_truncate h (mpcSelect_eq h triple f x y)
  · exact combine_eq_of_truncate h (mpcOswap_eq h triple f x y).1
  · exact combine_eq_of_truncate h (mpcOswap_eq h triple f x y).2

/-- The product of 60 and 70 modulo `2 ^ 12`, from shares that fill the word. -/
theorem gadgets_correct_twelve :
    let triple := multtriple (fun p => if p.bit then 11 else 300) (fun p => if p.bit then -4 else 17) 99
    let x (p : Player) : RegAS := if p.bit then ⟨65⟩ else ⟨-5⟩
    let y (p : Player) : RegAS := if p.bit then ⟨-1000000⟩ else ⟨1000070⟩
    (mpcMul 12 triple x y .p0).combine (mpcMul 12 triple x y .p1) 12 = 104 := by
  intro triple x y
  have hmul := (gadgets_correct (show 12 ≤ 64 by decide)).1 triple x y
  exact hmul.trans (by decide)

end Prac
