import Prac.Mpcops
import Prac.Lib.Bits
import Mathlib.Logic.Function.Basic

/-!
# Distributed point functions (`dpf.hpp`, `prg.hpp`)

* `LevelNode` — the two node types a level is expanded into, `DPFnode` and the wide `LeafNode`,
  with the operations the level code is templated over and the laws it relies on.
* `correctChild` — a PRG output corrected by a parent's flag: the one formula that
  `DPF.descend`, `RDPF.descendToLeaf` and the level construction share.
* `DPF.descend`, `DPF.nodeAt` — evaluation of inner nodes; `DPF.pushLevel` records the correction of
  one more level, which the levels above do not see (`DPF.pushLevel_agree`).
* `PointDiffer` — two levels agree off one index and differ in their flag at it; one corrected
  level preserves it (`PointDiffer.correct`).
-/

namespace Prac

/-- The node types a level can be expanded into. -/
class LevelNode (NT : Type) extends XorOp NT, Zero NT, LawfulXor NT where
  /-- What P2 deals for one `mpc_reconstruct_choice` on this type. -/
  Triples : Type
  getLsb : NT → Bool
  xorLsb : NT → Bool → NT
  xorIf : NT → NT → Bool → NT
  reconstructChoice : Triples → (Player → RegBS) → (Player → NT) → (Player → NT) → Player → NT
  getLsb_xor : ∀ a b, getLsb (a ^^^ b) = (getLsb a ^^ getLsb b)
  getLsb_xorLsb : ∀ a b, getLsb (xorLsb a b) = (getLsb a ^^ b)
  xorLsb_xor : ∀ a b c, xorLsb a c ^^^ b = xorLsb (a ^^^ b) c
  xorLsb_xorLsb : ∀ a b c, xorLsb (xorLsb a b) c = xorLsb a (b ^^ c)
  xorLsb_false : ∀ a, xorLsb a false = a
  xorIf_eq : ∀ a b flag, xorIf a b flag = if flag then a ^^^ b else a
  reconstructChoice_eq : ∀ t f x y p, reconstructChoice t f x y p =
    if (f .p0).bshare ^^ (f .p1).bshare then y .p0 ^^^ y .p1 else x .p0 ^^^ x .p1

instance : LevelNode DPFnode where
  Triples := NodeSelectTriples
  getLsb := getLsb
  xorLsb := xorLsb
  xorIf := xorIf
  reconstructChoice := mpcReconstructChoice
  getLsb_xor := getLsb_xor
  getLsb_xorLsb := getLsb_xorLsb
  xorLsb_xor a b c := Xor.xor_right_comm a _ b
  xorLsb_xorLsb := xorLsb_xorLsb
  xorLsb_false := xorLsb_false
  xorIf_eq a b flag := by cases flag <;> simp
  reconstructChoice_eq := mpcReconstructChoice_eq

/-- `LWIDTH`: the number of 128-bit entries of a leaf. -/
abbrev LWIDTH (WIDTH : Nat) : Nat := WIDTH / 2 + 1

instance (priority := 2000) neZero_LWIDTH (WIDTH : Nat) : NeZero (LWIDTH WIDTH) := ⟨Nat.succ_ne_zero _⟩

/-- `LeafNode`: one unit value and `WIDTH` scaled values in `LWIDTH` nodes. -/
abbrev LeafNode (WIDTH : Nat) := Fin (LWIDTH WIDTH) → DPFnode

variable {WIDTH : Nat}

/-- `get_lsb` on a wide node: the flag is in entry 0. -/
def LeafNode.getLsb (n : LeafNode WIDTH) : Bool := Prac.getLsb (n 0)

/-- `xor_lsb` on a wide node. -/
def LeafNode.xorLsb (n : LeafNode WIDTH) (b : Bool) : LeafNode WIDTH :=
  Function.update n 0 (Prac.xorLsb (n 0) b)

/-- `xor_if` on wide nodes. -/
def LeafNode.xorIf (block1 block2 : LeafNode WIDTH) (flag : Bool) : LeafNode WIDTH :=
  fun j => Prac.xorIf (block1 j) (block2 j) flag

/-- `mpc_reconstruct_choice` on wide nodes (`mpcops.tcc`), one coroutine an entry. -/
def LeafNode.reconstructChoice (triples : Fin (LWIDTH WIDTH) → NodeSelectTriples)
    (f : Player → RegBS) (x y : Player → LeafNode WIDTH) (p : Player) : LeafNode WIDTH :=
  fun j => mpcReconstructChoice (triples j) f (fun q => x q j) (fun q => y q j) p

instance : LevelNode (LeafNode WIDTH) where
  Triples := Fin (LWIDTH WIDTH) → NodeSelectTriples
  getLsb := LeafNode.getLsb
  xorLsb := LeafNode.xorLsb
  xorIf := LeafNode.xorIf
  reconstructChoice := LeafNode.reconstructChoice
  getLsb_xor a b := Prac.getLsb_xor (a 0) (b 0)
  getLsb_xorLsb a b := by simp [LeafNode.getLsb, LeafNode.xorLsb]
  xorLsb_xor a b c := by
    funext j
    by_cases hj : j = 0
    · subst hj
      simpa [LeafNode.xorLsb, Prac.xorLsb] using Xor.xor_right_comm (a 0) _ (b 0)
    · simp [LeafNode.xorLsb, Function.update_of_ne hj]
  xorLsb_xorLsb a b c := by simp [LeafNode.xorLsb, Prac.xorLsb_xorLsb]
  xorLsb_false a := by simp [LeafNode.xorLsb, Prac.xorLsb_false]
  xorIf_eq a b flag := by
    funext j
    cases flag <;> simp [LeafNode.xorIf]
  reconstructChoice_eq t f x y p := by
    funext j
    simp only [LeafNode.reconstructChoice, mpcReconstructChoice_eq]
    split <;> rfl

/-- `prg`: the two PRGs, as arbitrary functions of the parent and of which child.  The leaf PRG of the
source writes the nodes 0 to 2 of a leaf, which are all of them up to `WIDTH` 5; it leaves the others of a
wider leaf uninitialized, and no function describes them. -/
structure PRG (WIDTH : Nat) where
  node : DPFnode → Bool → DPFnode
  leaf : DPFnode → Bool → LeafNode WIDTH

/-- A party's half of a DPF.  `cfbits` is a machine word in the source, which no depth the code
reaches overflows. -/
structure DPF where
  seed : DPFnode
  whichhalf : Bool
  cw : List DPFnode
  cfbits : Nat

section Correction

variable {NT : Type} [LevelNode NT]

/-- A child as the PRG gives it, corrected by `CW` (for the right child, with `cfbit` in its low
bit) when the parent's flag is set. -/
def correctChild (prg : DPFnode → Bool → NT) (CW : NT) (cfbit : Bool) (parent : DPFnode)
    (whichchild : Bool) : NT :=
  if getLsb parent then
    prg parent whichchild ^^^ (if whichchild then LevelNode.xorLsb CW cfbit else CW)
  else prg parent whichchild

/-- Two levels of `n` nodes agree off index `t` and differ in the flag at `t`. -/
structure PointDiffer (n t : Nat) (a b : Nat → NT) : Prop where
  lt : t < n
  off : ∀ i < n, i ≠ t → a i = b i
  on : LevelNode.getLsb (a t) ≠ LevelNode.getLsb (b t)

/-- The correction word and flag that both parties compute for a level: the sum of the sides
that are to become equal, and the parity that makes the other two flags differ. -/
structure IsCorrection (L R : Player → NT) (choice : Bool) (CW : NT) (cfbit : Bool) : Prop where
  word : CW = if choice then L .p0 ^^^ L .p1 else LevelNode.xorLsb (R .p0 ^^^ R .p1) cfbit
  bit : cfbit = !(LevelNode.getLsb (L .p0 ^^^ L .p1) ^^ LevelNode.getLsb (R .p0 ^^^ R .p1))

end Correction

namespace DPF

/-- `DPF::descend`. -/
def descend (prg : DPFnode → Bool → DPFnode) (dpf : DPF) (parent : DPFnode) (parentdepth : Nat)
    (whichchild : Bool) : DPFnode :=
  let flag := getLsb parent
  let prgout := prg parent whichchild
  if flag then
    let CW := dpf.cw.getD parentdepth 0
    let cfbit := dpf.cfbits.testBit parentdepth
    let CWR := CW ^^^ lsb128Mask cfbit
    prgout ^^^ (if whichchild then CWR else CW)
  else prgout

/-- Record the correction of level `level`: `cw.push_back(CW)` and bit `level` of `cfbits`. -/
def pushLevel (dpf : DPF) (level : Nat) (CW : DPFnode) (cfbit : Bool) : DPF :=
  { dpf with
    cw := dpf.cw ++ [CW]
    cfbits := dpf.cfbits ||| (cfbit.toNat <<< level) }

theorem descend_eq_correctChild (prg : DPFnode → Bool → DPFnode) (dpf : DPF) (parent : DPFnode)
    (parentdepth : Nat) (whichchild : Bool) :
    dpf.descend prg parent parentdepth whichchild =
      correctChild prg (dpf.cw.getD parentdepth 0) (dpf.cfbits.testBit parentdepth) parent
        whichchild := rfl

/-- The inner node at an index of a level: the root is the seed, and index `i` hangs under
index `i / 2` of the level above. -/
def nodeAt (prg : DPFnode → Bool → DPFnode) (dpf : DPF) : Nat → Nat → DPFnode
  | 0, _ => dpf.seed
  | level + 1, i => dpf.descend prg (dpf.nodeAt prg level (i / 2)) level (i % 2 == 1)

/-- Two DPFs have the same seed and the same corrections below depth `n`. -/
structure Agree (n : Nat) (d d' : DPF) : Prop where
  seed : d.seed = d'.seed
  cw : ∀ k < n, d.cw.getD k 0 = d'.cw.getD k 0
  cfbits : ∀ k < n, d.cfbits.testBit k = d'.cfbits.testBit k

theorem Agree.nodeAt {prg : DPFnode → Bool → DPFnode} {n : Nat} {d d' : DPF}
    (h : DPF.Agree n d d') {level : Nat} (hlevel : level ≤ n) (i : Nat) :
    d.nodeAt prg level i = d'.nodeAt prg level i := by
  induction level generalizing i with
  | zero => exact h.seed
  | succ level ih =>
      simp only [DPF.nodeAt, descend_eq_correctChild, h.cw level hlevel, h.cfbits level hlevel,
        ih (Nat.le_of_succ_le hlevel)]

/-- Recording a level does not change the corrections of the levels above it. -/
theorem pushLevel_agree {dpf : DPF} {level : Nat} (CW : DPFnode) (cfbit : Bool)
    (hlen : dpf.cw.length = level) : Agree level dpf (dpf.pushLevel level CW cfbit) where
  seed := rfl
  cw k hk := by
    show _ = (dpf.cw ++ [CW]).getD k 0
    rw [List.getD_eq_getElem?_getD, List.getD_eq_getElem?_getD,
      List.getElem?_append_left (hlen ▸ hk)]
  cfbits k hk := by
    show _ = (dpf.cfbits ||| (cfbit.toNat <<< level)).testBit k
    rw [Bits.testBit_or_shiftLeft, decide_eq_false (Nat.ne_of_lt hk), Bool.false_and,
      Bool.or_false]

/-- The level that has just been recorded is evaluated with its correction. -/
theorem pushLevel_nodeAt (prg : DPFnode → Bool → DPFnode) {dpf : DPF} {level : Nat}
    (CW : DPFnode) (cfbit : Bool) (hlen : dpf.cw.length = level)
    (hbit : dpf.cfbits.testBit level = false) (i : Nat) :
    (dpf.pushLevel level CW cfbit).nodeAt prg (level + 1) i =
      correctChild prg CW cfbit (dpf.nodeAt prg level (i / 2)) (i % 2 == 1) := by
  have hcw : (dpf.pushLevel level CW cfbit).cw.getD level 0 = CW := by
    simp [pushLevel, ← hlen]
  have hcf : (dpf.pushLevel level CW cfbit).cfbits.testBit level = cfbit := by
    show (dpf.cfbits ||| (cfbit.toNat <<< level)).testBit level = cfbit
    rw [Bits.testBit_or_shiftLeft, hbit, decide_eq_true rfl, Bool.true_and, Bool.false_or]
  rw [nodeAt, descend_eq_correctChild, hcw, hcf, (pushLevel_agree CW cfbit hlen).nodeAt le_rfl]

/-- One step down the path to an index. -/
theorem nodeAt_child (prg : DPFnode → Bool → DPFnode) (dpf : DPF) (level i : Nat) (b : Bool) :
    dpf.nodeAt prg (level + 1) (2 * i + b.toNat) =
      dpf.descend prg (dpf.nodeAt prg level i) level b := by
  have hdiv : (2 * i + b.toNat) / 2 = i := by
    have := b.toNat_lt
    omega
  have hmod : ((2 * i + b.toNat) % 2 == 1) = b := by cases b <;> simp
  rw [nodeAt, hdiv, hmod]

theorem nodeAt_one (prg : DPFnode → Bool → DPFnode) (dpf : DPF) (b : Bool) :
    dpf.nodeAt prg 1 b.toNat = dpf.descend prg dpf.seed 0 b := by
  have h := nodeAt_child prg dpf 0 0 b
  rwa [Nat.mul_zero, Nat.zero_add, Nat.zero_add] at h

/-- One step down the path to `x`, whose prefixes number the nodes that it passes. -/
theorem nodeAt_shiftRight (prg : DPFnode → Bool → DPFnode) (dpf : DPF) {depth level : Nat} (x : Nat)
    (h : level < depth) :
    dpf.nodeAt prg (level + 1) (x >>> (depth - (level + 1))) =
      dpf.descend prg (dpf.nodeAt prg level (x >>> (depth - level))) level
        (x.testBit (depth - level - 1)) := by
  have hnext : depth - (level + 1) = depth - level - 1 := by omega
  have hshift : x >>> (depth - level) = (x >>> (depth - level - 1)) / 2 := by
    rw [← Nat.shiftRight_succ, Nat.sub_add_cancel (by omega)]
  rw [nodeAt, hnext, Bits.testBit_eq_beq, hshift]

end DPF

/-! ## One level -/

section Correction

variable {NT : Type} [LevelNode NT]

/-- Where exactly one parent has its flag set, the two corrected children XOR to the XOR of the
PRG outputs and one correction. -/
theorem correctChild_xor {prg : DPFnode → Bool → NT} {CW : NT} {cfbit : Bool} {a b : DPFnode}
    (hab : getLsb a ≠ getLsb b) (c : Bool) :
    correctChild prg CW cfbit a c ^^^ correctChild prg CW cfbit b c =
      (prg a c ^^^ prg b c) ^^^ (if c then LevelNode.xorLsb CW cfbit else CW) := by
  unfold correctChild
  cases ha : getLsb a <;> cases hb : getLsb b
  · exact absurd (ha.trans hb.symm) hab
  · simp [xor_assoc]
  · simp [Xor.xor_right_comm]
  · exact absurd (ha.trans hb.symm) hab

/-- **One corrected level**: if two levels differ at one point and the correction is the one
computed from their sums, the next level differs at one point too, the chosen child of `t`. -/
theorem PointDiffer.correct {prg : DPFnode → Bool → NT} {n t : Nat} {a b : Nat → DPFnode}
    (h : PointDiffer n t a b) {L R : Player → NT} {choice : Bool} {CW : NT} {cfbit : Bool}
    (hL : L .p0 ^^^ L .p1 = prg (a t) false ^^^ prg (b t) false)
    (hR : R .p0 ^^^ R .p1 = prg (a t) true ^^^ prg (b t) true)
    (hcorr : IsCorrection L R choice CW cfbit) :
    PointDiffer (2 * n) (2 * t + choice.toNat)
      (fun i => correctChild prg CW cfbit (a (i / 2)) (i % 2 == 1))
      (fun i => correctChild prg CW cfbit (b (i / 2)) (i % 2 == 1)) where
  lt := by
    have := h.lt
    cases choice <;> simp <;> omega
  off i hi hne := by
    by_cases hit : i / 2 = t
    · -- the sibling of the target: its two versions XOR to zero
      have hside : (i % 2 == 1) = !choice := by
        cases choice
        · have : i ≠ 2 * t := by simpa using hne
          simp
          omega
        · have : i ≠ 2 * t + 1 := by simpa using hne
          simp
          omega
      simp only [hit, hside]
      rw [← xor_eq_zero_iff, correctChild_xor h.on, hcorr.word]
      cases choice
      · simp [← hR, LevelNode.xorLsb_xorLsb, LevelNode.xorLsb_false, LawfulXor.xor_self]
      · simp [← hL, LawfulXor.xor_self]
    · simp only [h.off (i / 2) (by omega) hit]
  on := by
    have hdiv : (2 * t + choice.toNat) / 2 = t := by
      have := choice.toNat_lt
      omega
    have hmod : ((2 * t + choice.toNat) % 2 == 1) = choice := by cases choice <;> simp
    simp only [hdiv, hmod]
    have hxor : LevelNode.getLsb (correctChild prg CW cfbit (a t) choice ^^^
        correctChild prg CW cfbit (b t) choice) = true := by
      rw [correctChild_xor h.on, hcorr.word, hcorr.bit]
      cases choice <;>
        simp only [← hL, ← hR, LevelNode.getLsb_xor, LevelNode.getLsb_xorLsb, if_true,
          Bool.false_eq_true, if_false] <;>
        cases LevelNode.getLsb (L .p0) <;> cases LevelNode.getLsb (L .p1) <;>
        cases LevelNode.getLsb (R .p0) <;> cases LevelNode.getLsb (R .p1) <;> rfl
    rw [LevelNode.getLsb_xor] at hxor
    intro heq
    simp [heq] at hxor

theorem PointDiffer.flag_xor {n t : Nat} {a b : Nat → NT} (h : PointDiffer n t a b) {i : Nat}
    (hi : i < n) : (LevelNode.getLsb (a i) ^^ LevelNode.getLsb (b i)) = decide (i = t) := by
  by_cases hit : i = t
  · subst hit
    simpa using h.on
  · rw [h.off i hi hit, Bool.xor_self, decide_eq_false hit]

theorem PointDiffer.congr {n t : Nat} {a b a' b' : Nat → NT} (h : PointDiffer n t a b)
    (ha : ∀ i < n, a' i = a i) (hb : ∀ i < n, b' i = b i) : PointDiffer n t a' b' where
  lt := h.lt
  off i hi hne := by rw [ha i hi, hb i hi, h.off i hi hne]
  on := by
    rw [ha t h.lt, hb t h.lt]
    exact h.on

end Correction

end Prac
