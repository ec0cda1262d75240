import Prac.Oram
import Prac.Mpcops

/-!
# Shared values

* `reveal` — the value that the shares of P0 and P1 stand for, of a word or of a bit.
* `reveal_flagmult`, `reveal_select`, … — the gadgets on shares compute their ideal functions on the
  values, at full words.
* `compareWith` — a comparison with a CDPF that is made for it.

With these lemmas a protocol on shares is read as the same program on values.
-/

namespace Prac

/-- A kind of share, and how two of them are put together. -/
class Share (S : Type) (V : outParam Type) where
  combine : S → S → V

instance : Share RegAS Value := ⟨fun a b => a.ashare + b.ashare⟩
instance : Share RegXS Value := ⟨fun a b => a.xshare ^^^ b.xshare⟩
instance : Share RegBS Bool := ⟨fun a b => a.bshare ^^ b.bshare⟩

/-- The value behind the shares of P0 and P1. -/
def reveal {S V : Type} [Share S V] (x : Player → S) : V := Share.combine (x .p0) (x .p1)

theorem reveal_as (x : Player → RegAS) : reveal x = (x .p0 + x .p1).ashare := rfl

theorem reveal_xs (x : Player → RegXS) : reveal x = (x .p0).xshare ^^^ (x .p1).xshare := rfl

theorem reveal_bs (x : Player → RegBS) : reveal x = ((x .p0).bshare ^^ (x .p1).bshare) := rfl

/-! ## Local operations -/

section Local

variable (x y : Player → RegAS)

@[simp] theorem reveal_add : (reveal fun p => x p + y p) = reveal x + reveal y := by
  simp only [reveal_as, RegAS.ashare_add]
  ring

@[simp] theorem reveal_sub : (reveal fun p => x p - y p) = reveal x - reveal y := by
  simp only [reveal_as, RegAS.ashare_add, RegAS.ashare_sub]
  ring

@[simp] theorem reveal_neg : (reveal fun p => -x p) = -reveal x := by
  simp only [reveal_as, RegAS.ashare_add, RegAS.ashare_neg]
  ring

/-- A public word, held by P0. -/
@[simp] theorem reveal_public (v : Value) : (reveal fun p => (⟨if p.bit then 0 else v⟩ : RegAS)) = v :=
  add_zero v

@[simp] theorem reveal_zero : (reveal fun _ => (0 : RegAS)) = 0 := add_zero 0

@[simp] theorem reveal_xor (a b : Player → RegXS) :
    (reveal fun p => (⟨(a p).xshare ^^^ (b p).xshare⟩ : RegXS)) = reveal a ^^^ reveal b :=
  Xor.xor_xor_xor_comm ..

@[simp] theorem reveal_shiftLeft (a : Player → RegXS) (n : Nat) :
    (reveal fun p => (⟨(a p).xshare <<< n⟩ : RegXS)) = reveal a <<< n :=
  (BitVec.shiftLeft_xor_distrib ..).symm

/-- A public mask, XORed in by P0. -/
theorem reveal_xor_public (a : Player → RegXS) (v : Value) :
    (reveal fun p => (⟨(a p).xshare ^^^ if p.bit then 0 else v⟩ : RegXS)) = reveal a ^^^ v := by
  simp only [reveal_xs, Player.bit_p0, Player.bit_p1, Bool.false_eq_true, if_false, if_true, xor_zero]
  rw [BitVec.xor_assoc, BitVec.xor_comm v, ← BitVec.xor_assoc]

/-- A shared bit extended to a word, under a public mask. -/
@[simp] theorem reveal_ofBS_and (b : Player → RegBS) (v : Value) :
    (reveal fun p => (⟨(RegXS.ofBS (b p)).xshare &&& v⟩ : RegXS)) = if reveal b then v else 0 := by
  have hmask (c : Bool) : (RegXS.ofBS ⟨c⟩).xshare &&& v = if c then v else 0 := by
    cases c
    · exact BitVec.zero_and
    · exact BitVec.allOnes_and
  have hxor (c d : Bool) : ((if c then v else 0) ^^^ if d then v else 0) = if c ^^ d then v else 0 := by
    cases c <;> cases d <;> simp
  simp only [reveal_xs, reveal_bs, hmask]
  exact hxor ..

@[simp] theorem reveal_xorBS (a b : Player → RegBS) :
    (reveal fun p => (⟨(a p).bshare ^^ (b p).bshare⟩ : RegBS)) = (reveal a ^^ reveal b) := by
  simp only [reveal_bs]
  cases (a .p0).bshare <;> cases (a .p1).bshare <;> simp

/-- A shared bit as a shared word. -/
theorem reveal_bitXS (b : Player → RegBS) :
    (reveal fun p => (⟨BitVec.ofNat 64 (b p).bshare.toNat⟩ : RegXS)) = BitVec.ofNat 64 (reveal b).toNat := by
  simp only [reveal_xs, reveal_bs]
  cases (b .p0).bshare <;> cases (b .p1).bshare <;> decide

end Local

/-! ## Gadgets -/

section Gadgets

variable (triple : MultTriple) (f : Player → RegBS) (x y : Player → RegAS)

@[simp] theorem reveal_flagmult : reveal (mpcFlagmult 64 triple f y) = flagmult (reveal f) (reveal y) := by
  have h := mpcFlagmult_eq (le_refl 64) triple f y
  rwa [truncate_64, truncate_64] at h

@[simp] theorem reveal_select :
    reveal (mpcSelect 64 triple f x y) = select (reveal f) (reveal x) (reveal y) := by
  have h := mpcSelect_eq (le_refl 64) triple f x y
  rwa [truncate_64, truncate_64] at h

theorem reveal_oswap :
    ((reveal fun p => (mpcOswap 64 triple x y f p).1), (reveal fun p => (mpcOswap 64 triple x y f p).2)) =
      oswap (reveal x) (reveal y) (reveal f) := by
  obtain ⟨hfst, hsnd⟩ := mpcOswap_eq (le_refl 64) triple f x y
  rw [truncate_64, truncate_64] at hfst hsnd
  apply Prod.ext
  · refine hfst.trans ?_
    show (if reveal f then reveal y else reveal x) = _
    cases reveal f <;> rfl
  · refine hsnd.trans ?_
    show (if reveal f then reveal x else reveal y) = _
    cases reveal f <;> rfl

@[simp] theorem reveal_and (T : BitSelectTriple) (a b : Player → RegBS) :
    reveal (mpcAnd T a b) = (reveal a && reveal b) := mpcAnd_eq T a b

@[simp] theorem reveal_selectXS (triple : ValSelectTriple) (junk : Player → Value) (a b : Player → RegXS) :
    reveal (mpcSelectXS 64 triple junk f a b) = select (reveal f) (reveal a) (reveal b) := by
  have h := mpcSelectXS_eq 64 triple junk f a b
  have hmask (v : Value) : v &&& maskBits 64 = v := BitVec.and_allOnes
  rwa [RegXS.combine, hmask, hmask] at h

end Gadgets

/-! ## Comparisons -/

/-- What the server draws for a CDPF. -/
structure CdpfCoins where
  seeds : Player → DPFnode
  asTarget : RegAS
  xsTarget : RegXS
  target : Value

/-- `CDPF cdpf = tio.cdpf(yield)` and `cdpf.compare(tio, yield, diff, aes_ops)`: the shares of less,
equal and greater. -/
def compareWith (prg : DPFnode → Bool → DPFnode) (coins : CdpfCoins) (diff : Player → RegAS)
    (p : Player) : RegBS × RegBS × RegBS :=
  CDPF.compare prg (CDPF.generate prg coins.seeds coins.asTarget coins.xsTarget coins.target) diff p

section Compare

variable (prg : DPFnode → Bool → DPFnode) (coins : CdpfCoins) (diff : Player → RegAS)

theorem reveal_compare :
    ((reveal fun p => (compareWith prg coins diff p).1),
      (reveal fun p => (compareWith prg coins diff p).2.1),
      (reveal fun p => (compareWith prg coins diff p).2.2)) = signedCompare (reveal diff) := by
  have h := CDPF.compare_refines prg coins.seeds coins.asTarget coins.xsTarget coins.target diff
  dsimp only at h
  simp only [reveal_bs, reveal_as, compareWith]
  exact h

@[simp] theorem reveal_lt :
    (reveal fun p => (compareWith prg coins diff p).1) = (signedCompare (reveal diff)).1 :=
  congrArg Prod.fst (reveal_compare prg coins diff)

@[simp] theorem reveal_eq :
    (reveal fun p => (compareWith prg coins diff p).2.1) = (signedCompare (reveal diff)).2.1 :=
  congrArg (fun r => r.2.1) (reveal_compare prg coins diff)

@[simp] theorem reveal_gt :
    (reveal fun p => (compareWith prg coins diff p).2.2) = (signedCompare (reveal diff)).2.2 :=
  congrArg (fun r => r.2.2) (reveal_compare prg coins diff)

end Compare

end Prac
