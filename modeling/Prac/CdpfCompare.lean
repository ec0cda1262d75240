import Prac.Cdpf

/-!
# Comparison is correct

* `GenerateInv` — the invariant of the generation loop: the current nodes lie on the target's path,
  and the levels made so far differ at one point.
* `Halves` — what `generate` establishes: the leaves agree off the target's leaf, and there they
  differ in exactly the target's bit.
* `compareStep_rel` — the gathered bits of the two parties differ exactly when the target lies ahead
  of `S`, at the resolution of the current level.
* `cdpf_compare_correct` — the outputs reconstruct to the signed comparison of `x` with 0.
-/

namespace Prac

open Loop Cyclic Xor

namespace CDPF

variable {prg : DPFnode → Bool → DPFnode}

/-- The leaf with the 128 values that have the prefix `i`. -/
def leafAt (prg : DPFnode → Bool → DPFnode) (dpf : CDPF) (i : Nat) : DPFnode :=
  dpf.descendToLeaf prg (dpf.nodeAt prg (depth - 1) (i / 2)) (i % 2 == 1)

/-- The prefix of a word at a level of the tree. -/
def pathAt (v : Value) (level : Nat) : Nat := v.toNat >>> (64 - level)

theorem pathAt_lt (v : Value) {level : Nat} (h : level ≤ 64) : pathAt v level < 2 ^ level := by
  rw [pathAt, Nat.shiftRight_eq_div_pow, Nat.div_lt_iff_lt_mul (Nat.two_pow_pos _), ← pow_add,
    Nat.add_sub_cancel' h]
  exact v.isLt

theorem pathAt_succ (v : Value) {level : Nat} (h : level < 64) :
    pathAt v (level + 1) = 2 * pathAt v level + (v.getLsbD (63 - level)).toNat := by
  have hnext : 64 - (level + 1) = 63 - level := by omega
  have hlevel : 64 - level = 63 - level + 1 := by omega
  rw [pathAt, pathAt, hnext, hlevel, Bits.shiftRight_eq_two_mul_add, BitVec.getLsbD]

/-! ## Generation -/

/-- The invariant of the generation loop. -/
structure GenerateInv (prg : DPFnode → Bool → DPFnode) (target : Value) (level : Nat)
    (g : Generation) : Prop where
  whichhalf : ∀ p, (g.dpf p).whichhalf = p.bit
  asTarget : ((g.dpf .p0).asTarget + (g.dpf .p1).asTarget).ashare = target
  xsTarget : ((g.dpf .p0).xsTarget + (g.dpf .p1).xsTarget).xshare = target
  cw_length : ∀ p, (g.dpf p).cw.length = level
  cfbits : ∀ p i, level ≤ i → (g.dpf p).cfbits.testBit i = false
  cur : ∀ p, g.cur p = (g.dpf p).nodeAt prg level (pathAt target level)
  differ : ∀ k ≤ level, PointDiffer (2 ^ k) (pathAt target k) ((g.dpf .p0).nodeAt prg k)
    ((g.dpf .p1).nodeAt prg k)

theorem GenerateInv.init (prg : DPFnode → Bool → DPFnode) (seeds : Player → DPFnode)
    (asTarget : RegAS) (xsTarget : RegXS) (target : Value) :
    GenerateInv prg target 0 (generateInit seeds asTarget xsTarget target) where
  whichhalf p := rfl
  asTarget := by
    show asTarget.ashare + (target - asTarget.ashare) = target
    rw [add_sub_cancel]
  xsTarget := by
    show xsTarget.xshare ^^^ (target ^^^ xsTarget.xshare) = target
    rw [BitVec.xor_comm target, xor_cancel_left]
  cw_length p := rfl
  cfbits p i _ := Nat.zero_testBit i
  cur p := rfl
  differ k hk := by
    obtain rfl : k = 0 := by omega
    have hpath : pathAt target 0 = 0 := by
      have := pathAt_lt target (Nat.zero_le 64)
      omega
    refine ⟨pathAt_lt target (by omega), fun i hi hne => ?_, ?_⟩
    · rw [hpath] at hne
      simp at hi
      exact absurd hi hne
    · show getLsb (setLsb _ _) ≠ getLsb (setLsb _ _)
      simp

/-- The correction of an inner level, as the generation computes it. -/
theorem generateStep_inner (prg : DPFnode → Bool → DPFnode) (target : Value) {curlevel : Nat}
    (hlevel : curlevel < depth - 1) (g : Generation) :
    ∃ CW cfbit,
      IsCorrection (fun p => prg (g.cur p) false) (fun p => prg (g.cur p) true)
        (target.getLsbD (63 - curlevel)) CW cfbit ∧
      generateStep prg target curlevel g =
        { dpf := fun p => { g.dpf p with toDPF := (g.dpf p).pushLevel curlevel CW cfbit }
          cur := fun p =>
            correctChild prg CW cfbit (g.cur p) (target.getLsbD (63 - curlevel)) } := by
  obtain ⟨cfbit, hcfbit⟩ : ∃ b, b = !getLsb (prg (g.cur .p0) false ^^^ prg (g.cur .p1) false ^^^
    prg (g.cur .p0) true ^^^ prg (g.cur .p1) true) := ⟨_, rfl⟩
  have hbit : cfbit = !(getLsb (prg (g.cur .p0) false ^^^ prg (g.cur .p1) false) ^^
      getLsb (prg (g.cur .p0) true ^^^ prg (g.cur .p1) true)) := by
    rw [hcfbit]
    simp only [getLsb_xor, Bool.xor_assoc]
  have hdir : depth + 7 - curlevel - 1 = 63 - curlevel := by
    rw [depth_eq]
    omega
  cases hd : target.getLsbD (63 - curlevel)
  · refine ⟨_, cfbit, ⟨rfl, hbit⟩, ?_⟩
    simp only [generateStep, hdir, hd, if_pos hlevel, if_true, ← hcfbit]
    congr 1
    funext p
    cases hf : getLsb (g.cur p) <;> simp [correctChild, hf, LevelNode.xorLsb, xorLsb]
  · refine ⟨_, cfbit, ⟨rfl, hbit⟩, ?_⟩
    simp only [generateStep, hdir, hd, if_pos hlevel, ← hcfbit, Bool.true_eq_false, if_false]
    congr 1
    funext p
    cases hf : getLsb (g.cur p) <;> simp [correctChild, hf, LevelNode.xorLsb, xorLsb]

/-- An inner level keeps the invariant. -/
theorem GenerateInv.step {target : Value} {curlevel : Nat} {g : Generation}
    (h : GenerateInv prg target curlevel g) (hlevel : curlevel < depth - 1) :
    GenerateInv prg target (curlevel + 1) (generateStep prg target curlevel g) := by
  obtain ⟨CW, cfbit, hcorr, hstep⟩ := generateStep_inner prg target hlevel g
  have hsucc : pathAt target (curlevel + 1) =
      2 * pathAt target curlevel + (target.getLsbD (63 - curlevel)).toNat :=
    pathAt_succ target (by rw [depth_eq] at hlevel; omega)
  have hnode p i : ((g.dpf p).pushLevel curlevel CW cfbit).nodeAt prg (curlevel + 1) i =
      correctChild prg CW cfbit ((g.dpf p).nodeAt prg curlevel (i / 2)) (i % 2 == 1) :=
    DPF.pushLevel_nodeAt prg CW cfbit (h.cw_length p) (h.cfbits p curlevel le_rfl) i
  rw [hstep]
  refine ⟨h.whichhalf, h.asTarget, h.xsTarget, fun p => ?_, fun p i hi => ?_, fun p => ?_,
    fun k hk => ?_⟩
  · show ((g.dpf p).cw ++ [CW]).length = _
    rw [List.length_append, h.cw_length]
    rfl
  · show ((g.dpf p).cfbits ||| (cfbit.toNat <<< curlevel)).testBit i = false
    rw [Bits.testBit_or_shiftLeft, h.cfbits p i (by omega), decide_eq_false (by omega),
      Bool.false_and, Bool.or_false]
  · show correctChild _ _ _ _ _ = ((g.dpf p).pushLevel curlevel CW cfbit).nodeAt prg _ _
    have hdiv : pathAt target (curlevel + 1) / 2 = pathAt target curlevel := by
      have := (target.getLsbD (63 - curlevel)).toNat_lt
      omega
    have hmod : (pathAt target (curlevel + 1) % 2 == 1) = target.getLsbD (63 - curlevel) := by
      rw [hsucc]
      cases target.getLsbD (63 - curlevel) <;> simp
    rw [hnode, hdiv, hmod, h.cur]
  · show PointDiffer _ _ (((g.dpf .p0).pushLevel curlevel CW cfbit).nodeAt prg k)
      (((g.dpf .p1).pushLevel curlevel CW cfbit).nodeAt prg k)
    rcases Nat.lt_succ_iff_lt_or_eq.mp (Nat.lt_succ_of_le hk) with hlt | rfl
    · have hold p i : ((g.dpf p).pushLevel curlevel CW cfbit).nodeAt prg k i =
          (g.dpf p).nodeAt prg k i :=
        ((DPF.pushLevel_agree CW cfbit (h.cw_length p)).nodeAt (by omega) i).symm
      exact (h.differ k (by omega)).congr (fun i _ => hold .p0 i) (fun i _ => hold .p1 i)
    · have hnext := (h.differ curlevel le_rfl).correct (by rw [← h.cur, ← h.cur])
        (by rw [← h.cur, ← h.cur]) hcorr
      rw [← hsucc, mul_comm, ← pow_succ] at hnext
      exact hnext.congr (fun i _ => hnode .p0 i) (fun i _ => hnode .p1 i)

/-- What `generate` establishes about the two halves. -/
structure Halves (prg : DPFnode → Bool → DPFnode) (target : Value) (dpf : Player → CDPF) :
    Prop where
  whichhalf : ∀ p, (dpf p).whichhalf = p.bit
  asTarget : ((dpf .p0).asTarget + (dpf .p1).asTarget).ashare = target
  xsTarget : ((dpf .p0).xsTarget + (dpf .p1).xsTarget).xshare = target
  inner : ∀ level < depth, PointDiffer (2 ^ level) (pathAt target level)
    ((dpf .p0).nodeAt prg level) ((dpf .p1).nodeAt prg level)
  leaf_off : ∀ i < 2 ^ depth, i ≠ pathAt target depth →
    (dpf .p0).leafAt prg i = (dpf .p1).leafAt prg i
  leaf_on : BitDiffer (target &&& 0x7f).toNat ((dpf .p0).leafAt prg (pathAt target depth))
    ((dpf .p1).leafAt prg (pathAt target depth))

theorem and_127_toNat (v : Value) : (v &&& 0x7f).toNat = v.toNat % 128 := by
  show v.toNat &&& 127 = _
  exact Nat.and_two_pow_sub_one_eq_mod v.toNat 7

theorem targetSetBit_eq (target : Value) :
    targetSetBit target = BitVec.twoPow 128 (target &&& 0x7f).toNat := by
  have hloc : (target &&& 0x7f).toNat < 128 := by
    rw [and_127_toNat]
    exact Nat.mod_lt _ (by decide)
  generalize hl : (target &&& 0x7f).toNat = loc at hloc
  refine BitVec.eq_of_getLsbD_eq fun i hi => ?_
  simp only [targetSetBit, hl]
  rw [BitVec.getLsbD_append, BitVec.getLsbD_twoPow]
  by_cases hge : loc ≥ 64 <;> by_cases hlow : i < 64 <;>
    simp only [hge, hlow, if_true, if_false, BitVec.getLsbD_twoPow] <;> grind

/-- The last level: the siblings of the target's leaf are made equal, and the leaves of the target
equal but for the target's bit. -/
theorem generateStep_leaf (prg : DPFnode → Bool → DPFnode) (target : Value) (g : Generation) :
    ∃ CW CWR cfbit,
      (∀ p, (generateStep prg target 56 g).dpf p =
        { g.dpf p with toDPF := (g.dpf p).pushLevel 56 CW cfbit, leafCwr := CWR }) ∧
      ∀ c, (prg (g.cur .p0) c ^^^ prg (g.cur .p1) c) ^^^ (if c then CWR else CW) =
        if c = target.getLsbD 7 then BitVec.twoPow 128 (target &&& 0x7f).toNat else 0 := by
  have hlast : ¬ 56 < depth - 1 := by decide
  have hdir : depth + 7 - 56 - 1 = 7 := rfl
  rw [← targetSetBit_eq]
  cases hd : target.getLsbD 7
  · refine ⟨prg (g.cur .p0) false ^^^ prg (g.cur .p1) false ^^^ targetSetBit target,
      prg (g.cur .p0) true ^^^ prg (g.cur .p1) true,
      !getLsb (prg (g.cur .p0) false ^^^ prg (g.cur .p1) false ^^^ prg (g.cur .p0) true ^^^
        prg (g.cur .p1) true), fun p => ?_, fun c => ?_⟩
    · simp only [generateStep, hdir, hd, if_neg hlast, if_true]
    · cases c
      · simp [xor_cancel_left]
      · simp
  · refine ⟨prg (g.cur .p0) false ^^^ prg (g.cur .p1) false,
      prg (g.cur .p0) true ^^^ prg (g.cur .p1) true ^^^ targetSetBit target,
      !getLsb (prg (g.cur .p0) false ^^^ prg (g.cur .p1) false ^^^ prg (g.cur .p0) true ^^^
        prg (g.cur .p1) true), fun p => ?_, fun c => ?_⟩
    · simp only [generateStep, hdir, hd, if_neg hlast, Bool.true_eq_false, if_false]
    · cases c
      · simp
      · simp [xor_cancel_left]

/-- Where both parents are the same, or the corrected XOR of the children is zero, the leaves are
equal; where it is not, they differ by it. -/
theorem leaf_xor {CW CWR a b : DPFnode} {c : Bool} (hab : getLsb a ≠ getLsb b) :
    ((if getLsb a then prg a c ^^^ (if c then CWR else CW) else prg a c) ^^^
      (if getLsb b then prg b c ^^^ (if c then CWR else CW) else prg b c)) =
        (prg a c ^^^ prg b c) ^^^ (if c then CWR else CW) := by
  cases ha : getLsb a <;> cases hb : getLsb b
  · exact absurd (ha.trans hb.symm) hab
  · simp [xor_assoc]
  · simp [xor_right_comm]
  · exact absurd (ha.trans hb.symm) hab

/-- **Generation.**  The two halves share the target, and their trees differ at its path only. -/
theorem generate_spec (prg : DPFnode → Bool → DPFnode) (seeds : Player → DPFnode)
    (asTarget : RegAS) (xsTarget : RegXS) (target : Value) :
    Halves prg target (generate prg seeds asTarget xsTarget target) := by
  obtain ⟨g, hg⟩ : ∃ g, g =
    forRange 0 56 (generateStep prg target) (generateInit seeds asTarget xsTarget target) := ⟨_, rfl⟩
  have h : GenerateInv prg target 56 g := by
    rw [hg]
    exact forRange_inv (GenerateInv prg target) (by omega)
      (GenerateInv.init prg seeds asTarget xsTarget target)
      fun level g _ hlevel h => h.step hlevel
  have hgen : generate prg seeds asTarget xsTarget target = (generateStep prg target 56 g).dpf := by
    rw [generate, depth_eq, forRange_succ (Nat.zero_le 56), hg]
  obtain ⟨CW, CWR, cfbit, hdpf, hcorr⟩ := generateStep_leaf prg target g
  have hnode p {k : Nat} (hk : k ≤ 56) (i : Nat) :
      ((generateStep prg target 56 g).dpf p).nodeAt prg k i = (g.dpf p).nodeAt prg k i := by
    rw [hdpf]
    exact ((DPF.pushLevel_agree CW cfbit (h.cw_length p)).nodeAt hk i).symm
  have hleaf p i : ((generateStep prg target 56 g).dpf p).leafAt prg i =
      if getLsb ((g.dpf p).nodeAt prg 56 (i / 2)) then
        prg ((g.dpf p).nodeAt prg 56 (i / 2)) (i % 2 == 1) ^^^
          (if (i % 2 == 1) then CWR else CW)
      else prg ((g.dpf p).nodeAt prg 56 (i / 2)) (i % 2 == 1) := by
    have hlast : ((g.dpf p).cw ++ [CW]).getLastD 0 = CW := by simp
    show descendToLeaf prg _ (DPF.nodeAt prg _ 56 (i / 2)) _ = _
    rw [hnode p le_rfl, hdpf]
    simp only [descendToLeaf, DPF.pushLevel, hlast]
  have hsucc : pathAt target 57 = 2 * pathAt target 56 + (target.getLsbD 7).toNat :=
    pathAt_succ target (by omega)
  have hdiffer := h.differ 56 le_rfl
  have hpar p : (g.dpf p).nodeAt prg 56 (pathAt target 56) = g.cur p := (h.cur p).symm
  rw [hgen]
  refine ⟨fun p => ?_, ?_, ?_, fun level hlevel => ?_, fun i hi hne => ?_, ?_⟩
  · rw [hdpf]
    exact h.whichhalf p
  · rw [hdpf, hdpf]
    exact h.asTarget
  · rw [hdpf, hdpf]
    exact h.xsTarget
  · have hle : level ≤ 56 := by rw [depth_eq] at hlevel; omega
    exact (h.differ level hle).congr (fun i _ => hnode .p0 hle i) (fun i _ => hnode .p1 hle i)
  · rw [hleaf, hleaf]
    by_cases hit : i / 2 = pathAt target 56
    · have hside : (i % 2 == 1) ≠ target.getLsbD 7 := by
        rw [depth_eq, hsucc] at hne
        generalize target.getLsbD 7 = d at hne ⊢
        intro heq
        cases d <;> simp at heq hne <;> omega
      have hon := hdiffer.on
      rw [hpar, hpar] at hon
      rw [hit, hpar, hpar, ← xor_eq_zero_iff, leaf_xor hon, hcorr, if_neg hside]
    · rw [hdiffer.off (i / 2) (by rw [depth_eq] at hi; omega) hit]
  · have hdiv : pathAt target 57 / 2 = pathAt target 56 := by
      have := (target.getLsbD 7).toNat_lt
      omega
    have hmod : (pathAt target 57 % 2 == 1) = target.getLsbD 7 := by
      rw [hsucc]
      cases target.getLsbD 7 <;> simp
    have hon := hdiffer.on
    rw [hpar, hpar] at hon
    refine BitDiffer.of_xor ?_ ?_
    · rw [and_127_toNat]
      exact Nat.mod_lt _ (by decide)
    · rw [depth_eq, hleaf, hleaf, hdiv, hmod, hpar, hpar, leaf_xor hon, hcorr, if_pos rfl]

/-! ## Comparison -/

variable {target : Value} {dpf : Player → CDPF}

/-- The relation between the two parties' comparison loops at a level: they are at the nodes of the
prefix of `S` and of the opposite prefix, and their gathered bits differ exactly when the target's
prefix lies ahead of that of `S`. -/
structure CompareRel (prg : DPFnode → Bool → DPFnode) (target : Value) (dpf : Player → CDPF)
    (S : Value) (level : Nat) (s : Player → CompareState) : Prop where
  Snode : ∀ p, (s p).Snode = (dpf p).nodeAt prg level (pathAt S level)
  Tnode : ∀ p, (s p).Tnode = (dpf p).nodeAt prg level (opposite (2 ^ (level - 1)) (pathAt S level))
  gt : ((s .p0).gt ^^ (s .p1).gt) =
    decide (Ahead (2 ^ (level - 1)) (pathAt S level) (pathAt target level))

theorem pathAt_one (S : Value) : pathAt S 1 = (S.getLsbD 63).toNat := by
  have h0 := pathAt_lt S (Nat.zero_le 64)
  have h1 : pathAt S 1 = 2 * pathAt S 0 + (S.getLsbD 63).toNat := pathAt_succ S (by omega)
  omega

theorem CompareRel.init (S : Value) (dpf : Player → CDPF) :
    CompareRel prg target dpf S 1 (fun p => compareInit prg (dpf p) S) where
  Snode p := by
    rw [pathAt_one, DPF.nodeAt_one]
    rfl
  Tnode p := by
    have hopp : opposite (2 ^ (1 - 1)) (S.getLsbD 63).toNat = (!S.getLsbD 63).toNat := by
      cases S.getLsbD 63 <;> rfl
    rw [pathAt_one, hopp, DPF.nodeAt_one]
    rfl
  gt := (decide_eq_false (not_ahead_one _ _)).symm

/-- How the two parties' gathered bits combine. -/
theorem gather_xor (b g0 g1 sp0 sp1 sn0 sn1 tp0 tp1 tn0 tn1 : Bool) :
    ((g0 ^^ if b = false then sp0 ^^ sn0 else tp0 ^^ tn0) ^^
      (g1 ^^ if b = false then sp1 ^^ sn1 else tp1 ^^ tn1)) =
    ((g0 ^^ g1) ^^ if b then (tp0 ^^ tp1) ^^ (tn0 ^^ tn1) else (sp0 ^^ sp1) ^^ (sn0 ^^ sn1)) := by
  cases b
  · exact (xor_xor_xor_comm g0 _ g1 _).trans (congrArg _ (xor_xor_xor_comm sp0 sn0 sp1 sn1))
  · exact (xor_xor_xor_comm g0 _ g1 _).trans (congrArg _ (xor_xor_xor_comm tp0 tn0 tp1 tn1))

/-- The nodes at the prefix of `S` and at the opposite one, one level further down. -/
theorem CompareRel.children {S : Value} {level : Nat} {s : Player → CompareState}
    (hr : CompareRel prg target dpf S level s) (h1 : 1 ≤ level) (hlevel : level < 64) (p : Player) :
    (dpf p).descend prg (s p).Snode level (S.getLsbD (63 - level)) =
        (dpf p).nodeAt prg (level + 1) (pathAt S (level + 1)) ∧
      (dpf p).descend prg (s p).Tnode level (S.getLsbD (63 - level)) =
        (dpf p).nodeAt prg (level + 1) (opposite (2 ^ level) (pathAt S (level + 1))) := by
  have hP : 2 ^ level = 2 * 2 ^ (level - 1) := by
    rw [← pow_succ', Nat.sub_add_cancel h1]
  constructor
  · rw [pathAt_succ S hlevel, DPF.nodeAt_child, hr.Snode]
  · rw [pathAt_succ S hlevel, hP, opposite_child, DPF.nodeAt_child, hr.Tnode]

/-- **One level of the comparison.** -/
theorem compareStep_rel (h : Halves prg target dpf) {S : Value} {level : Nat}
    {s : Player → CompareState} (hr : CompareRel prg target dpf S level s) (h1 : 1 ≤ level)
    (hlevel : level < 56) :
    CompareRel prg target dpf S (level + 1) (fun p => compareStep prg (dpf p) S level (s p)) := by
  have hdir : depth + 7 - level - 1 = 63 - level := by
    rw [depth_eq]
    omega
  have hchild := hr.children h1 (by omega)
  have hP : 2 ^ level = 2 * 2 ^ (level - 1) := by
    rw [← pow_succ', Nat.sub_add_cancel h1]
  have hSlt : pathAt S level < 2 * 2 ^ (level - 1) := hP ▸ pathAt_lt S (by omega)
  have htlt : pathAt target level < 2 * 2 ^ (level - 1) := hP ▸ pathAt_lt target (by omega)
  have hopp : opposite (2 ^ level) (pathAt S (level + 1)) < 2 ^ (level + 1) := by
    rw [pow_succ']
    exact opposite_lt (pow_succ' 2 level ▸ pathAt_lt S (by omega))
  have hin := h.inner level (by rw [depth_eq]; omega)
  have hin' := h.inner (level + 1) (by rw [depth_eq]; omega)
  refine ⟨fun p => ?_, fun p => ?_, ?_⟩
  · simp only [compareStep, hdir, (hchild p).1]
  · simp only [compareStep, hdir, (hchild p).2, Nat.add_sub_cancel]
  · simp only [compareStep, hdir, (hchild _).1, (hchild _).2]
    simp only [gather_xor, hr.gt, hr.Snode, hr.Tnode, Nat.add_sub_cancel]
    have hS := hin.flag_xor (hP ▸ hSlt)
    have hT := hin.flag_xor (hP ▸ opposite_lt hSlt)
    have hS' := hin'.flag_xor (pathAt_lt S (by omega : level + 1 ≤ 64))
    have hT' := hin'.flag_xor hopp
    simp only [LevelNode.getLsb] at hS hT hS' hT'
    rw [hS, hT, hS', hT', pathAt_succ S (by omega), pathAt_succ target (by omega), hP,
      opposite_child, ahead_child hSlt htlt]
    congr 1
    cases S.getLsbD (63 - level) <;> rfl

/-- The parities of the two parties' leaves differ exactly at the target's leaf. -/
theorem Halves.parity_xor (h : Halves prg target dpf) {i : Nat} (hi : i < 2 ^ depth) :
    (parity ((dpf .p0).leafAt prg i) ^^ parity ((dpf .p1).leafAt prg i)) =
      decide (i = pathAt target depth) := by
  by_cases hit : i = pathAt target depth
  · subst hit
    rw [h.leaf_on.parity, decide_eq_true rfl]
  · rw [h.leaf_off i hi hit, Bool.xor_self, decide_eq_false hit]

/-- What the last level of the comparison leaves, for the prefixes of 57 bits. -/
theorem compareLeaf_rel (h : Halves prg target dpf) {S : Value} {s : Player → CompareState}
    (hr : CompareRel prg target dpf S 56 s) :
    (∀ p, (compareLeaf prg (dpf p) S (s p)).Snode = (dpf p).leafAt prg (pathAt S 57) ∧
      (compareLeaf prg (dpf p) S (s p)).Tnode =
        (dpf p).leafAt prg (opposite (2 ^ 56) (pathAt S 57))) ∧
      ((compareLeaf prg (dpf .p0) S (s .p0)).gt ^^ (compareLeaf prg (dpf .p1) S (s .p1)).gt) =
        decide (Ahead (2 ^ 56) (pathAt S 57) (pathAt target 57)) := by
  have hdir : depth + 7 - (depth - 1) - 1 = 7 := rfl
  have hsucc : pathAt S 57 = 2 * pathAt S 56 + (S.getLsbD 7).toNat := pathAt_succ S (by omega)
  have hsucc' : pathAt target 57 = 2 * pathAt target 56 + (target.getLsbD 7).toNat :=
    pathAt_succ target (by omega)
  have hopp : opposite (2 ^ 56) (pathAt S 57) =
      2 * opposite (2 ^ 55) (pathAt S 56) + (S.getLsbD 7).toNat := by
    rw [hsucc, ← opposite_child]
    rfl
  have hdiv (i : Nat) (b : Bool) : (2 * i + b.toNat) / 2 = i := by
    have := b.toNat_lt
    omega
  have hmod (i : Nat) (b : Bool) : ((2 * i + b.toNat) % 2 == 1) = b := by cases b <;> simp
  have hS p : (compareLeaf prg (dpf p) S (s p)).Snode = (dpf p).leafAt prg (pathAt S 57) := by
    rw [hsucc, leafAt, hdiv, hmod, depth_eq]
    simp only [compareLeaf, hdir, hr.Snode]
  have hT p : (compareLeaf prg (dpf p) S (s p)).Tnode =
      (dpf p).leafAt prg (opposite (2 ^ 56) (pathAt S 57)) := by
    rw [hopp, leafAt, hdiv, hmod, depth_eq]
    simp only [compareLeaf, hdir, hr.Tnode]
  have hSlt : pathAt S 56 < 2 * 2 ^ 55 := pathAt_lt S (by omega)
  have htlt : pathAt target 56 < 2 * 2 ^ 55 := pathAt_lt target (by omega)
  have hin := h.inner 56 (by rw [depth_eq]; omega)
  have hfS := hin.flag_xor hSlt
  have hfT := hin.flag_xor (opposite_lt hSlt)
  have hpS := h.parity_xor (pathAt_lt S (by omega : (57 : Nat) ≤ 64))
  have hTlt : opposite (2 ^ 56) (pathAt S 57) < 2 * 2 ^ 56 := opposite_lt (pathAt_lt S (by omega))
  have hpT := h.parity_xor hTlt
  refine ⟨fun p => ⟨hS p, hT p⟩, ?_⟩
  have hgt p : (compareLeaf prg (dpf p) S (s p)).gt = ((s p).gt ^^
      if S.getLsbD 7 = false then
        getLsb (s p).Snode ^^ parity (compareLeaf prg (dpf p) S (s p)).Snode
      else getLsb (s p).Tnode ^^ parity (compareLeaf prg (dpf p) S (s p)).Tnode) := rfl
  simp only [LevelNode.getLsb] at hfS hfT
  rw [depth_eq] at hpS hpT
  rw [hgt, hgt, gather_xor, hr.gt, hS, hS, hT, hT, hpS, hpT, hr.Snode, hr.Snode, hr.Tnode, hr.Tnode,
    hfS, hfT, hopp, hsucc, hsucc']
  refine Eq.trans ?_ (ahead_child hSlt htlt _ _).symm
  congr 1
  cases S.getLsbD 7 <;> rfl

/-- A word is its 57-bit prefix and its position in the block. -/
theorem toNat_eq_block (v : Value) : v.toNat = 128 * pathAt v 57 + (v &&& 0x7f).toNat := by
  rw [and_127_toNat, pathAt, Nat.shiftRight_eq_div_pow]
  exact (Nat.div_add_mod v.toNat 128).symm

/-- Bits of the leaf at a prefix of 57 bits, and at a position in it. -/
theorem Halves.leaf_bits (h : Halves prg target dpf) {i p : Nat} (hi : i < 2 ^ depth)
    (hp : p < 128) :
    (bitAt ((dpf .p0).leafAt prg i) p ^^ bitAt ((dpf .p1).leafAt prg i) p) =
        decide (i = pathAt target depth ∧ p = (target &&& 0x7f).toNat) ∧
      (parityAbove ((dpf .p0).leafAt prg i) p ^^ parityAbove ((dpf .p1).leafAt prg i) p) =
        decide (i = pathAt target depth ∧ p < (target &&& 0x7f).toNat) ∧
      (parityBelow ((dpf .p0).leafAt prg i) p ^^ parityBelow ((dpf .p1).leafAt prg i) p) =
        decide (i = pathAt target depth ∧ (target &&& 0x7f).toNat < p) := by
  by_cases hit : i = pathAt target depth
  · subst hit
    rw [h.leaf_on.bitAt hp, h.leaf_on.parityAbove hp, h.leaf_on.parityBelow hp]
    simp
  · rw [h.leaf_off i hi hit]
    simp [hit]

/-- The point `S` of the circle of all words, seen from which `target` lies at distance `x`. -/
theorem gap_eq_sub (S target : Value) : gap (2 * 2 ^ 63) S.toNat target.toNat = (target - S).toNat := by
  unfold gap
  split <;> bv_omega

/-- How the two parties' final bits combine. -/
theorem final_xor : ∀ g0 a0 b0 g1 a1 b1 : Bool, ((g0 ^^ a0 ^^ b0) ^^ (g1 ^^ a1 ^^ b1)) =
    ((g0 ^^ g1) ^^ ((a0 ^^ a1) ^^ (b0 ^^ b1))) := by
  decide

theorem ahead_eq_signed (S target : Value) :
    Ahead (2 ^ 63) S.toNat target.toNat ↔ target - S ≠ 0 ∧ (target - S).msb = false := by
  have hzero : target - S ≠ 0 ↔ 0 < (target - S).toNat := by
    rw [Nat.pos_iff_ne_zero, ne_eq, ne_eq, ← BitVec.toNat_inj]
    rfl
  rw [Ahead, gap_eq_sub, hzero, BitVec.msb_eq_decide, decide_eq_false_iff_not, Nat.not_le]

theorem decide_positive {x : Value} (h : x ≠ 0) : decide (x ≠ 0 ∧ x.msb = false) = !x.msb := by
  cases hmsb : x.msb
  · exact decide_eq_true ⟨h, rfl⟩
  · exact decide_eq_false fun hand => Bool.false_ne_true hand.2.symm

/-- **The local comparison at `S`**: the outputs reconstruct to the signed comparison of
`target - S` with 0. -/
theorem compareLocal_spec (h : Halves prg target dpf) (S : Value) :
    ((compareLocal prg (dpf .p0) S).2.1.bshare ^^ (compareLocal prg (dpf .p1) S).2.1.bshare) =
        decide (target - S = 0) ∧
      ((compareLocal prg (dpf .p0) S).2.2.bshare ^^ (compareLocal prg (dpf .p1) S).2.2.bshare) =
        decide (target - S ≠ 0 ∧ (target - S).msb = false) ∧
      ((compareLocal prg (dpf .p0) S).1.bshare ^^ (compareLocal prg (dpf .p1) S).1.bshare) =
        (target - S).msb := by
  have hrel := forRange_family (fun level s => CompareRel prg target dpf S level s)
    (by omega : 1 ≤ 56) (CompareRel.init S dpf)
    fun level s h1 hlevel hr => compareStep_rel h hr h1 hlevel
  obtain ⟨hnodes, hgt⟩ := compareLeaf_rel h hrel
  have hSpos : (S &&& 0x7f).toNat < 128 := by
    rw [and_127_toNat]
    exact Nat.mod_lt _ (by decide)
  have htpos : (target &&& 0x7f).toNat < 128 := by
    rw [and_127_toNat]
    exact Nat.mod_lt _ (by decide)
  have hSlt : pathAt S 57 < 2 * 2 ^ 56 := pathAt_lt S (by omega)
  have htlt : pathAt target 57 < 2 * 2 ^ 56 := pathAt_lt target (by omega)
  obtain ⟨hbit, habove, -⟩ := h.leaf_bits hSlt hSpos
  obtain ⟨-, -, hbelow⟩ := h.leaf_bits (opposite_lt hSlt) hSpos
  have hblock := ahead_block hSlt htlt hSpos htpos
  rw [← toNat_eq_block, ← toNat_eq_block] at hblock
  obtain ⟨st, hst⟩ : ∃ st : Player → CompareState, ∀ p, compareLeaf prg (dpf p) S
    (forRange 1 56 (compareStep prg (dpf p) S) (compareInit prg (dpf p) S)) = st p := ⟨_, fun p => rfl⟩
  simp only [hst] at hnodes hgt
  rw [depth_eq] at hbit habove hbelow
  have heq : (bitAt (st .p0).Snode (S &&& 0x7f).toNat ^^ bitAt (st .p1).Snode (S &&& 0x7f).toNat) =
      decide (target - S = 0) := by
    rw [(hnodes .p0).1, (hnodes .p1).1, hbit, decide_eq_decide]
    have hS := toNat_eq_block S
    have ht := toNat_eq_block target
    constructor
    · rintro ⟨hpath, hpos⟩
      rw [sub_eq_zero, ← BitVec.toNat_inj, hS, ht, hpath, hpos]
    · intro hsub
      rw [sub_eq_zero] at hsub
      rw [hsub]
      exact ⟨rfl, rfl⟩
  have hgt' : (((st .p0).gt ^^ parityAbove (st .p0).Snode (S &&& 0x7f).toNat ^^
        parityBelow (st .p0).Tnode (S &&& 0x7f).toNat) ^^
      ((st .p1).gt ^^ parityAbove (st .p1).Snode (S &&& 0x7f).toNat ^^
        parityBelow (st .p1).Tnode (S &&& 0x7f).toNat)) =
      decide (target - S ≠ 0 ∧ (target - S).msb = false) := by
    rw [← decide_eq_decide.mpr (ahead_eq_signed S target), final_xor, hgt, (hnodes .p0).1,
      (hnodes .p1).1, (hnodes .p0).2, (hnodes .p1).2, habove, hbelow]
    exact hblock.symm
  have hout p : compareLocal prg (dpf p) S =
      let eq := bitAt (st p).Snode (S &&& 0x7f).toNat
      let gt := (st p).gt ^^ parityAbove (st p).Snode (S &&& 0x7f).toNat ^^
        parityBelow (st p).Tnode (S &&& 0x7f).toNat
      (⟨(dpf p).whichhalf ^^ eq ^^ gt⟩, ⟨eq⟩, ⟨gt⟩) := by
    have hlast : depth - 1 = 56 := rfl
    simp only [compareLocal, hlast, hst]
  refine ⟨?_, ?_, ?_⟩
  · simp only [hout, heq]
  · simp only [hout, hgt']
  · rw [hout, hout]
    refine (final_xor _ _ _ _ _ _).trans ?_
    rw [heq, hgt', h.whichhalf, h.whichhalf]
    by_cases hzero : target - S = 0
    · simp [hzero]
    · rw [decide_eq_false hzero, decide_positive hzero]
      cases (target - S).msb <;> rfl

/-- `is_zero` computes each party's `eq` output of `compare`. -/
theorem isZeroLocal_eq (prg : DPFnode → Bool → DPFnode) (dpf : CDPF) (S : Value) :
    isZeroLocal prg dpf S = (compareLocal prg dpf S).2.1 := by
  have hlast : depth - 1 = 56 := rfl
  have hnode : forRange 1 56 (fun curlevel Snode =>
      dpf.descend prg Snode curlevel (S.getLsbD (depth + 7 - curlevel - 1)))
        (dpf.descend prg dpf.seed 0 (S.getLsbD 63)) =
      (forRange 1 56 (compareStep prg dpf S) (compareInit prg dpf S)).Snode := by
    refine forRange_rel (fun _ Snode (s : CompareState) => Snode = s.Snode) (by omega) rfl ?_
    rintro curlevel _ s - - rfl
    rfl
  simp only [isZeroLocal, compareLocal, hlast, hnode, compareLeaf]

/-- What the two players open for a comparison is the target less the shared word. -/
theorem Halves.compare_eq_local (h : Halves prg target dpf) (xs : Player → RegAS) (p : Player) :
    compare prg dpf xs p =
      compareLocal prg (dpf p) (target - ((xs .p0).ashare + (xs .p1).ashare)) := by
  have hopen : ((dpf .p0).asTarget - xs .p0).ashare + ((dpf .p1).asTarget - xs .p1).ashare =
      target - ((xs .p0).ashare + (xs .p1).ashare) := by
    rw [← h.asTarget]
    simp only [RegAS.ashare_add, RegAS.ashare_sub]
    ring
  cases p
  · simp only [compare, Player.peer_p0, hopen]
  · simp only [compare, Player.peer_p1, add_comm _ ((dpf .p0).asTarget - xs .p0).ashare, hopen]

end CDPF

/-- **Comparison is correct.**  For arbitrary PRG, seeds and target, and for the shares of the target
that `generate` deals: on additive shares of `x` the outputs of `compare` reconstruct to exactly one
of `lt`, `eq`, `gt`, that of the signed comparison of `x` with 0, and `is_zero`, on additive as on
XOR shares, reconstructs to 1 iff the shared word is 0. -/
theorem cdpf_compare_correct (prg : DPFnode → Bool → DPFnode) (seeds : Player → DPFnode)
    (asTarget : RegAS) (xsTarget : RegXS) (target : Value) (xs : Player → RegAS)
    (ys : Player → RegXS) :
    ∃ dpf, dpf = CDPF.generate prg seeds asTarget xsTarget target ∧
    ∃ lt eq gt,
      ((CDPF.compare prg dpf xs .p0).1.bshare ^^ (CDPF.compare prg dpf xs .p1).1.bshare) = lt ∧
      ((CDPF.compare prg dpf xs .p0).2.1.bshare ^^ (CDPF.compare prg dpf xs .p1).2.1.bshare) = eq ∧
      ((CDPF.compare prg dpf xs .p0).2.2.bshare ^^ (CDPF.compare prg dpf xs .p1).2.2.bshare) = gt ∧
      lt.toNat + eq.toNat + gt.toNat = 1 ∧
      (eq = true ↔ (xs .p0 + xs .p1).ashare = 0) ∧
      (gt = true ↔ (xs .p0 + xs .p1).ashare ≠ 0 ∧ (xs .p0 + xs .p1).ashare.msb = false) ∧
      (lt = true ↔ (xs .p0 + xs .p1).ashare.msb = true) ∧
      ((CDPF.isZero prg dpf xs .p0).bshare ^^ (CDPF.isZero prg dpf xs .p1).bshare) = eq ∧
      ((CDPF.isZero prg dpf ys .p0).bshare ^^ (CDPF.isZero prg dpf ys .p1).bshare) =
        decide ((ys .p0 + ys .p1).xshare = 0) := by
  obtain ⟨dpf, hdpf⟩ : ∃ dpf, dpf = CDPF.generate prg seeds asTarget xsTarget target := ⟨_, rfl⟩
  have h : CDPF.Halves prg target dpf := hdpf ▸ CDPF.generate_spec prg seeds asTarget xsTarget target
  obtain ⟨x, hx⟩ : ∃ x, x = (xs .p0 + xs .p1).ashare := ⟨_, rfl⟩
  have hopen : ((dpf .p0).asTarget - xs .p0).ashare + ((dpf .p1).asTarget - xs .p1).ashare =
      target - x := by
    rw [← h.asTarget, hx]
    simp only [RegAS.ashare_add, RegAS.ashare_sub]
    ring
  have hopen' : ((dpf .p1).asTarget - xs .p1).ashare + ((dpf .p0).asTarget - xs .p0).ashare =
      target - x := by rw [add_comm, hopen]
  have hsub : target - (target - x) = x := by ring
  obtain ⟨heq, hgt, hlt⟩ := CDPF.compareLocal_spec h (target - x)
  rw [hsub] at heq hgt hlt
  have hcompare p : CDPF.compare prg dpf xs p = CDPF.compareLocal prg (dpf p) (target - x) :=
    hx ▸ h.compare_eq_local xs p
  have hzero p : CDPF.isZero prg dpf xs p = CDPF.isZeroLocal prg (dpf p) (target - x) := by
    cases p
    · exact congrArg (CDPF.isZeroLocal prg (dpf .p0)) hopen
    · exact congrArg (CDPF.isZeroLocal prg (dpf .p1)) hopen'
  refine ⟨dpf, hdpf, x.msb, decide (x = 0), decide (x ≠ 0 ∧ x.msb = false), ?_, ?_, ?_, ?_, ?_, ?_,
    ?_, ?_, ?_⟩
  · rw [hcompare, hcompare, hlt]
  · rw [hcompare, hcompare, heq]
  · rw [hcompare, hcompare, hgt]
  · by_cases hzero : x = 0
    · subst hzero
      rfl
    · rw [decide_eq_false hzero, CDPF.decide_positive hzero]
      cases x.msb <;> rfl
  · rw [← hx, decide_eq_true_eq]
  · rw [← hx, decide_eq_true_eq]
  · rw [← hx]
  · rw [hzero, hzero, CDPF.isZeroLocal_eq, CDPF.isZeroLocal_eq, heq]
  · obtain ⟨y, hy⟩ : ∃ y, y = (ys .p0 + ys .p1).xshare := ⟨_, rfl⟩
    have hxor : (((dpf .p0).xsTarget - ys .p0) + ((dpf .p1).xsTarget - ys .p1)).xshare =
        target ^^^ y := by
      rw [← h.xsTarget, hy]
      exact Xor.xor_xor_xor_comm _ _ _ _
    have hxor' : (((dpf .p1).xsTarget - ys .p1) + ((dpf .p0).xsTarget - ys .p0)).xshare =
        target ^^^ y := by rw [add_comm, hxor]
    have hzero' p : CDPF.isZero prg dpf ys p = CDPF.isZeroLocal prg (dpf p) (target ^^^ y) := by
      cases p
      · exact congrArg (CDPF.isZeroLocal prg (dpf .p0)) hxor
      · exact congrArg (CDPF.isZeroLocal prg (dpf .p1)) hxor'
    rw [hzero', hzero', CDPF.isZeroLocal_eq, CDPF.isZeroLocal_eq,
      (CDPF.compareLocal_spec h (target ^^^ y)).1, ← hy, decide_eq_decide, sub_eq_zero]
    constructor
    · intro hxy
      rw [← xor_cancel_left target y, ← hxy]
      exact BitVec.xor_self
    · intro hy0
      rw [hy0]
      exact BitVec.xor_zero.symm

end Prac
