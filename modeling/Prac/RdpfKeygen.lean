import Prac.RdpfLevel

/-!
# Key generation is correct

* `KeygenInv` — the invariant of the constructor's loop: the current levels are those that
  `descend` evaluates and differ at one point, and every leaf level made so far is well made
  (`LeafLevelOk`).
* `create_spec` — up to depth 30 the constructor succeeds and every leaf level it makes is well made;
  `create_eq_none` — beyond, it fails.
* `rdpf_create_correct_iff` — exactly up to depth 30 the two halves agree off the target, differ in the
  flag at it, and their unit-vector shares add up to the standard basis vector.
-/

namespace Prac

open Loop Xor

variable {WIDTH : Nat}

/-! ## Evaluation of a half under construction -/

namespace RDPF

/-- The leaf at an index of a leaf level, evaluated from the seed. -/
def leafAt (prg : PRG WIDTH) (dpf : RDPF WIDTH) (level i : Nat) : LeafNode WIDTH :=
  dpf.descendToLeaf prg (dpf.nodeAt prg.node (level - 1) (i / 2)) (level - 1) (i % 2 == 1)

/-- `descend_to_leaf` into level `level + 1`. -/
theorem descendToLeaf_eq_correctChild (prg : PRG WIDTH) (dpf : RDPF WIDTH) (parent : DPFnode)
    (level : Nat) (whichchild : Bool) :
    dpf.descendToLeaf prg parent level whichchild =
      correctChild prg.leaf (dpf.li.getD (dpf.maxdepth - level - 1) default).leafCw
        (dpf.leafCfbits.testBit (dpf.maxdepth - level - 1)) parent whichchild := rfl

@[simp] theorem setLeafLevel_toDPF (dpf : RDPF WIDTH) (index : Nat) (info : LeafInfo WIDTH)
    (cfbit : Bool) : (dpf.setLeafLevel index info cfbit).toDPF = dpf.toDPF := rfl

end RDPF

/-! ## The loop invariant -/

/-- The reconstructed target at a level: its `level` high bits. -/
def targetAt (target depth level : Nat) : Nat := (target % 2 ^ depth) >>> (depth - level)

theorem targetAt_zero (target depth : Nat) : targetAt target depth 0 = 0 := by
  rw [targetAt, Nat.sub_zero, Nat.shiftRight_eq_div_pow,
    Nat.div_eq_of_lt (Nat.mod_lt _ (Nat.two_pow_pos depth))]

theorem targetAt_succ {target depth level : Nat} (h : level < depth) :
    targetAt target depth (level + 1) =
      2 * targetAt target depth level + (target.testBit (depth - level - 1)).toNat := by
  have hbit : (target % 2 ^ depth).testBit (depth - level - 1) =
      target.testBit (depth - level - 1) := by
    rw [Nat.testBit_mod_two_pow, decide_eq_true (by omega), Bool.true_and]
  have hnext : depth - (level + 1) = depth - level - 1 := by omega
  have hlevel : depth - level = depth - level - 1 + 1 := by omega
  unfold targetAt
  rw [hnext, Bits.shiftRight_eq_two_mul_add, hbit, ← hlevel]

/-- A leaf level of the two halves is well made: the leaves differ at one point, a saved expansion
holds the leaves, the two inverses are equal and scale the target's difference to 1, and the
scaled sums are those of the leaves. -/
structure LeafLevelOk (prg : PRG WIDTH) (save : Bool) (level t : Nat) (dpf : Player → RDPF WIDTH) :
    Prop where
  differ : PointDiffer (2 ^ level) t ((dpf .p0).leafAt prg level) ((dpf .p1).leafAt prg level)
  expansion : ∀ p, ((dpf p).li.getD ((dpf p).maxdepth - level) default).expansion =
    if save then (List.range (2 ^ level)).map ((dpf p).leafAt prg level) else []
  inverse : ((dpf .p0).li.getD ((dpf .p0).maxdepth - level) default).unitSumInverse =
    ((dpf .p1).li.getD ((dpf .p1).maxdepth - level) default).unitSumInverse
  unit : (lowWord ((dpf .p0).leafAt prg level t 0) - lowWord ((dpf .p1).leafAt prg level t 0)) *
    ((dpf .p0).li.getD ((dpf .p0).maxdepth - level) default).unitSumInverse = 1
  scaledSum : ∀ p j,
    (((dpf p).li.getD ((dpf p).maxdepth - level) default).scaledSum j).ashare =
      if Player.bit p then
        -∑ i ∈ Finset.range (2 ^ level), scaledWord ((dpf p).leafAt prg level i) j
      else ∑ i ∈ Finset.range (2 ^ level), scaledWord ((dpf p).leafAt prg level i) j
  scaledXor : ∀ p j,
    (((dpf p).li.getD ((dpf p).maxdepth - level) default).scaledXor j).xshare =
      xorSum (fun i => scaledWord ((dpf p).leafAt prg level i) j) (2 ^ level)

/-- Being well made depends only on the leaves and the `LeafInfo` of the level. -/
theorem LeafLevelOk.congr {prg : PRG WIDTH} {save : Bool} {level t : Nat}
    {dpf dpf' : Player → RDPF WIDTH} (h : LeafLevelOk prg save level t dpf)
    (hleaf : ∀ p i, (dpf' p).leafAt prg level i = (dpf p).leafAt prg level i)
    (hinfo : ∀ p, (dpf' p).li.getD ((dpf' p).maxdepth - level) default =
      (dpf p).li.getD ((dpf p).maxdepth - level) default) :
    LeafLevelOk prg save level t dpf' := by
  have hleaf' p : (dpf' p).leafAt prg level = (dpf p).leafAt prg level := funext (hleaf p)
  constructor
  · simpa only [hleaf'] using h.differ
  · simpa only [hleaf', hinfo] using h.expansion
  · simpa only [hinfo] using h.inverse
  · simpa only [hleaf', hinfo] using h.unit
  · simpa only [hleaf', hinfo] using h.scaledSum
  · simpa only [hleaf', hinfo] using h.scaledXor

/-- The fields of a half that the loop never changes, and how far its corrections reach. -/
structure HalfShape (depth : Nat) (incremental : Bool) (level : Nat) (p : Player)
    (dpf : RDPF WIDTH) : Prop where
  whichhalf : dpf.whichhalf = p.bit
  maxdepth : dpf.maxdepth = depth
  curdepth : dpf.curdepth = depth
  li_length : dpf.li.length = if incremental then depth else 1
  cw_length : dpf.cw.length = min level (depth - 1)
  cfbits : ∀ i, min level (depth - 1) ≤ i → dpf.cfbits.testBit i = false
  leafCfbits : ∀ i, i + level < depth → dpf.leafCfbits.testBit i = false

/-- The invariant of the constructor's loop. -/
structure KeygenInv (prg : PRG WIDTH) (target depth : Nat) (incremental save : Bool) (level : Nat)
    (s : Player → Construction WIDTH) : Prop where
  shape : ∀ p, HalfShape depth incremental level p (s p).dpf
  cur : level < depth → ∀ p, ∀ i < 2 ^ level,
    (s p).curlevel i = (s p).dpf.nodeAt prg.node level i
  differ : level < depth →
    PointDiffer (2 ^ level) (targetAt target depth level) (s .p0).curlevel (s .p1).curlevel
  leaves : ∀ l, 1 ≤ l → l ≤ level → (incremental = true ∨ l = depth) →
    LeafLevelOk prg save l (targetAt target depth l) (fun p => (s p).dpf)

/-- The reconstructed choice bit of a level is the target's bit. -/
theorem choice_eq_testBit (target : Player → RegXS) (k : Nat) :
    (((target .p0).bit k).bshare ^^ ((target .p1).bit k).bshare) =
      ((target .p0).xshare ^^^ (target .p1).xshare).toNat.testBit k := by
  simp [RegXS.bit, BitVec.getLsbD, Nat.testBit_xor]

theorem KeygenInv.init (prg : PRG WIDTH) (seeds : Player → DPFnode) (target depth : Nat)
    (incremental save : Bool) :
    KeygenInv prg target depth incremental save 0 (RDPF.createInit seeds depth incremental) where
  shape p :=
    { whichhalf := rfl
      maxdepth := rfl
      curdepth := rfl
      li_length := by simp [RDPF.createInit]
      cw_length := by simp [RDPF.createInit]
      cfbits := fun i _ => Nat.zero_testBit i
      leafCfbits := fun i _ => Nat.zero_testBit i }
  cur _ p i _ := rfl
  differ _ :=
    { lt := by rw [targetAt_zero]; exact Nat.two_pow_pos 0
      off := fun i hi hne => by
        rw [targetAt_zero] at hne
        simp at hi
        exact absurd hi hne
      on := by
        show getLsb (setLsb _ _) ≠ getLsb (setLsb _ _)
        simp }
  leaves l h1 h0 := by omega

/-! ## One iteration -/

/-- The state after the inner coroutine of an iteration: the leaf levels of the previous ones are
kept and the new inner level is in place. -/
structure MidInv (prg : PRG WIDTH) (target depth : Nat) (incremental save : Bool) (level : Nat)
    (s s' : Player → Construction WIDTH) : Prop where
  li : ∀ p, (s' p).dpf.li = (s p).dpf.li
  leafCfbits : ∀ p, (s' p).dpf.leafCfbits = (s p).dpf.leafCfbits
  whichhalf : ∀ p, (s' p).dpf.whichhalf = p.bit
  maxdepth : ∀ p, (s' p).dpf.maxdepth = depth
  curdepth : ∀ p, (s' p).dpf.curdepth = depth
  cw_length : ∀ p, (s' p).dpf.cw.length = min (level + 1) (depth - 1)
  cfbits : ∀ p i, min (level + 1) (depth - 1) ≤ i → (s' p).dpf.cfbits.testBit i = false
  agree : ∀ p, DPF.Agree (min level (depth - 1)) (s p).dpf.toDPF (s' p).dpf.toDPF
  cur : level + 1 < depth → ∀ p, ∀ i < 2 ^ (level + 1),
    (s' p).curlevel i = (s' p).dpf.nodeAt prg.node (level + 1) i
  differ : level + 1 < depth → PointDiffer (2 ^ (level + 1)) (targetAt target depth (level + 1))
    (s' .p0).curlevel (s' .p1).curlevel

variable {prg : PRG WIDTH} (nthreads : Player → ℕ+) {target : Player → RegXS}
  {depth level : Nat} {incremental save : Bool} (triples : Nat → LevelTriples WIDTH)
  {s : Player → Construction WIDTH}

/-- The target that the two parties share. -/
def reconstructTarget (target : Player → RegXS) : Nat :=
  ((target .p0).xshare ^^^ (target .p1).xshare).toNat

theorem KeygenInv.nodeStep
    (h : KeygenInv prg (reconstructTarget target) depth incremental save level s)
    (hlevel : level < depth) :
    MidInv prg (reconstructTarget target) depth incremental save level s
      (RDPF.createNodeStep prg nthreads target depth triples level s) := by
  by_cases hlast : level < depth - 1
  · obtain ⟨CW, cfbit, hboth, hdiffer⟩ := createNodeLevel_spec prg nthreads
      (fun q => (s q).curlevel) (fun q => (target q).bit (depth - level - 1)) (triples level).node
      (h.differ hlevel)
    rw [choice_eq_testBit, ← reconstructTarget, ← targetAt_succ hlevel] at hdiffer
    have hstep p : RDPF.createNodeStep prg nthreads target depth triples level s p =
        { dpf := { (s p).dpf with toDPF := (s p).dpf.pushLevel level CW cfbit }
          curlevel := (createNodeLevel prg nthreads level (fun q => (s q).curlevel)
            (fun q => (target q).bit (depth - level - 1)) (triples level).node p).1 } := by
      simp only [RDPF.createNodeStep, if_pos hlast, (hboth p).1]
    have hlen p : (s p).dpf.cw.length = level := by
      rw [(h.shape p).cw_length]
      omega
    have hbit p : (s p).dpf.cfbits.testBit level = false :=
      (h.shape p).cfbits level (by omega)
    have hcur p : ∀ i < 2 ^ (level + 1),
        (createNodeLevel prg nthreads level (fun q => (s q).curlevel)
          (fun q => (target q).bit (depth - level - 1)) (triples level).node p).1 i =
        ((s p).dpf.pushLevel level CW cfbit).nodeAt prg.node (level + 1) i := by
      intro i hi
      rw [(hboth p).2 i hi, DPF.pushLevel_nodeAt prg.node CW cfbit (hlen p) (hbit p),
        h.cur hlevel p (i / 2) (by rw [pow_succ] at hi; omega)]
    constructor
    case li => exact fun p => by rw [hstep]
    case leafCfbits => exact fun p => by rw [hstep]
    case whichhalf => exact fun p => by rw [hstep]; exact (h.shape p).whichhalf
    case maxdepth => exact fun p => by rw [hstep]; exact (h.shape p).maxdepth
    case curdepth => exact fun p => by rw [hstep]; exact (h.shape p).curdepth
    case cw_length =>
      intro p
      rw [hstep]
      show ((s p).dpf.cw ++ [CW]).length = _
      rw [List.length_append, hlen]
      simp
      omega
    case cfbits =>
      intro p i hi
      rw [hstep]
      show ((s p).dpf.cfbits ||| (cfbit.toNat <<< level)).testBit i = false
      rw [Bits.testBit_or_shiftLeft, (h.shape p).cfbits i (by omega),
        decide_eq_false (by omega), Bool.false_and, Bool.or_false]
    case agree =>
      intro p
      rw [hstep, min_eq_left (by omega)]
      exact DPF.pushLevel_agree CW cfbit (hlen p)
    case cur =>
      intro _ p i hi
      rw [hstep]
      exact hcur p i hi
    case differ =>
      intro _
      rw [hstep, hstep]
      refine ⟨hdiffer.lt, fun i hi hne => ?_, ?_⟩
      · show (createNodeLevel _ _ _ _ _ _ _).1 i = (createNodeLevel _ _ _ _ _ _ _).1 i
        rw [(hboth .p0).2 i hi, (hboth .p1).2 i hi]
        exact hdiffer.off i hi hne
      · show LevelNode.getLsb ((createNodeLevel _ _ _ _ _ _ _).1 _) ≠
          LevelNode.getLsb ((createNodeLevel _ _ _ _ _ _ _).1 _)
        rw [(hboth .p0).2 _ hdiffer.lt, (hboth .p1).2 _ hdiffer.lt]
        exact hdiffer.on
  · -- the last level has no inner coroutine
    have hstep p : RDPF.createNodeStep prg nthreads target depth triples level s p = s p := by
      simp only [RDPF.createNodeStep, if_neg hlast]
    have hmin : min (level + 1) (depth - 1) = min level (depth - 1) := by omega
    constructor
    case li => exact fun p => by rw [hstep]
    case leafCfbits => exact fun p => by rw [hstep]
    case whichhalf => exact fun p => by rw [hstep]; exact (h.shape p).whichhalf
    case maxdepth => exact fun p => by rw [hstep]; exact (h.shape p).maxdepth
    case curdepth => exact fun p => by rw [hstep]; exact (h.shape p).curdepth
    case cw_length => exact fun p => by rw [hstep, hmin]; exact (h.shape p).cw_length
    case cfbits => exact fun p => by rw [hstep, hmin]; exact (h.shape p).cfbits
    case agree => exact fun p => by rw [hstep]; exact ⟨rfl, fun _ _ => rfl, fun _ _ => rfl⟩
    case cur => exact fun hlt => absurd hlt (by omega)
    case differ => exact fun hlt => absurd hlt (by omega)

/-- The leaf levels made before are kept by an iteration. -/
theorem KeygenInv.keep
    (h : KeygenInv prg (reconstructTarget target) depth incremental save level s)
    {s' : Player → Construction WIDTH}
    (hmid : MidInv prg (reconstructTarget target) depth incremental save level s s')
    {dpf : Player → RDPF WIDTH} (hdpf : ∀ p, (dpf p).toDPF = (s' p).dpf.toDPF)
    (hmax : ∀ p, (dpf p).maxdepth = depth)
    (hli : ∀ p k, depth - level - 1 < k → (dpf p).li.getD k default = (s p).dpf.li.getD k default)
    (hbits : ∀ p k, depth - level - 1 < k →
      (dpf p).leafCfbits.testBit k = (s p).dpf.leafCfbits.testBit k)
    {l : Nat} (h1 : 1 ≤ l) (hl : l ≤ level) (hlevel : level < depth)
    (hleaf : incremental = true ∨ l = depth) :
    LeafLevelOk prg save l (targetAt (reconstructTarget target) depth l) dpf := by
  have hmax' p := (h.shape p).maxdepth
  refine (h.leaves l h1 hl hleaf).congr (fun p i => ?_) (fun p => ?_)
  · simp only [RDPF.leafAt, RDPF.descendToLeaf_eq_correctChild, hmax, hmax', hdpf]
    rw [hli p _ (by omega), hbits p _ (by omega), (hmid.agree p).nodeAt (by omega)]
  · rw [hmax, hmax', hli p _ (by omega)]

/-- A leaf level that has just been created is well made. -/
theorem LeafCreated.ok {curlevel : Player → Nat → DPFnode} {t : Nat} {CW : LeafNode WIDTH}
    {cfbit : Bool} {child : Player → Nat → LeafNode WIDTH} {info : Player → LeafInfo WIDTH}
    (h : LeafCreated prg curlevel (2 ^ (level + 1)) t save CW cfbit child info)
    {dpf : Player → RDPF WIDTH} (hmax : ∀ p, (dpf p).maxdepth = depth)
    (hinfo : ∀ p, (dpf p).li.getD (depth - (level + 1)) default = info p)
    (hbit : ∀ p, (dpf p).leafCfbits.testBit (depth - (level + 1)) = cfbit)
    (hcur : ∀ p, ∀ i < 2 ^ level, curlevel p i = (dpf p).nodeAt prg.node level i) :
    LeafLevelOk prg save (level + 1) t dpf := by
  have hleaf p : ∀ i < 2 ^ (level + 1), (dpf p).leafAt prg (level + 1) i = child p i := by
    intro i hi
    rw [RDPF.leafAt, RDPF.descendToLeaf_eq_correctChild, Nat.add_sub_cancel, hmax, Nat.sub_sub,
      hinfo, hbit, h.leafCw, h.child_eq, hcur p _ (by rw [pow_succ] at hi; omega)]
  have hsum p j : ∑ i ∈ Finset.range (2 ^ (level + 1)),
      scaledWord ((dpf p).leafAt prg (level + 1) i) j =
        ∑ i ∈ Finset.range (2 ^ (level + 1)), scaledWord (child p i) j :=
    Finset.sum_congr rfl fun i hi => by rw [hleaf p i (Finset.mem_range.mp hi)]
  constructor
  · exact h.differ.congr (hleaf .p0) (hleaf .p1)
  · intro p
    rw [hmax, hinfo, h.expansion]
    split
    · exact List.map_congr_left fun i hi => (hleaf p i (List.mem_range.mp hi)).symm
    · rfl
  · rw [hmax, hmax, hinfo, hinfo, h.inverse]
  · rw [hmax, hinfo, hleaf .p0 t h.differ.lt, hleaf .p1 t h.differ.lt, h.unit]
  · intro p j
    rw [hmax, hinfo, h.scaledSum, hsum]
  · intro p j
    rw [hmax, hinfo, h.scaledXor]
    exact xorSum_congr fun i hi => by rw [hleaf p i hi]

/-- **One iteration** succeeds and keeps the invariant. -/
theorem KeygenInv.step
    (h : KeygenInv prg (reconstructTarget target) depth incremental save level s)
    (hlevel : level < depth) (hdepth : depth ≤ RDPF.maxKeyDepth) :
    ∃ s', RDPF.createStep prg nthreads target depth incremental save triples level s = some s' ∧
      KeygenInv prg (reconstructTarget target) depth incremental save (level + 1) s' := by
  have hsize : ¬31 ≤ level + 1 := by
    have : RDPF.maxKeyDepth = 30 := rfl
    omega
  have hmid := h.nodeStep nthreads triples hlevel
  obtain ⟨s', hs'⟩ : ∃ s', s' = RDPF.createNodeStep prg nthreads target depth triples level s :=
    ⟨_, rfl⟩
  rw [← hs'] at hmid
  by_cases hleaf : incremental = true ∨ level = depth - 1
  · obtain ⟨out, CW, cfbit, child, hout, hcfbit, hcreated⟩ := createLeafLevel_spec prg nthreads
      (fun q => (s q).curlevel) (fun q => (target q).bit (depth - level - 1)) (triples level).leaf
      save (h.differ hlevel)
    rw [choice_eq_testBit, ← reconstructTarget, ← targetAt_succ hlevel] at hcreated
    refine ⟨_, by rw [RDPF.createStep, if_neg hsize, if_pos hleaf, hout, ← hs', Option.map_some], ?_⟩
    have hidx : depth - level - 1 < (if incremental then depth else 1) := by
      rcases hleaf with hinc | hlast
      · rw [if_pos hinc]
        omega
      · split <;> omega
    have hli p : (s' p).dpf.li.length = if incremental then depth else 1 := by
      rw [hmid.li, (h.shape p).li_length]
    have hbits p k : ((s' p).dpf.setLeafLevel (depth - level - 1) (out p).1 (out p).2).leafCfbits.testBit
        k = ((s p).dpf.leafCfbits.testBit k || (decide (k = depth - level - 1) && cfbit)) := by
      rw [← hcfbit p, ← hmid.leafCfbits p]
      exact Bits.testBit_or_shiftLeft _ _ _ _
    have hset p k : ((s' p).dpf.setLeafLevel (depth - level - 1) (out p).1 (out p).2).li.getD k
        default = if k = depth - level - 1 then (out p).1 else (s p).dpf.li.getD k default := by
      show ((s' p).dpf.li.set (depth - level - 1) (out p).1).getD k default = _
      rw [List.getD_eq_getElem?_getD, List.getElem?_set, hmid.li]
      split
      · rename_i hk
        rw [if_pos (by rw [(h.shape p).li_length]; exact hidx), if_pos hk.symm, Option.getD_some]
      · rename_i hk
        rw [if_neg (Ne.symm hk), List.getD_eq_getElem?_getD]
    refine ⟨fun p => ⟨hmid.whichhalf p, hmid.maxdepth p, hmid.curdepth p, ?_, hmid.cw_length p,
      hmid.cfbits p, fun i hi => ?_⟩, hmid.cur, hmid.differ, fun l h1 hl hll => ?_⟩
    · show ((s' p).dpf.li.set _ _).length = _
      rw [List.length_set, hli]
    · show ((s' p).dpf.setLeafLevel _ _ _).leafCfbits.testBit i = false
      rw [hbits, (h.shape p).leafCfbits i (by omega), decide_eq_false (by omega), Bool.false_and,
        Bool.or_false]
    · rcases Nat.lt_succ_iff_lt_or_eq.mp (Nat.lt_succ_of_le hl) with hlt | rfl
      · show LeafLevelOk prg save l _ fun p =>
          (s' p).dpf.setLeafLevel (depth - level - 1) (out p).1 (out p).2
        refine h.keep hmid (fun p => RDPF.setLeafLevel_toDPF _ _ _ _) hmid.maxdepth (fun p k hk => ?_)
          (fun p k hk => ?_) h1 (Nat.lt_succ_iff.mp hlt) hlevel hll
        · exact (hset p k).trans (if_neg (by omega))
        · refine (hbits p k).trans ?_
          rw [decide_eq_false (by omega), Bool.false_and, Bool.or_false]
      · refine hcreated.ok hmid.maxdepth (fun p => ?_) (fun p => ?_) (fun p i hi => ?_)
        · exact (hset p _).trans (if_pos (by omega))
        · refine (hbits p _).trans ?_
          rw [(h.shape p).leafCfbits _ (by omega), decide_eq_true (by omega), Bool.true_and,
            Bool.false_or]
        · exact (h.cur hlevel p i hi).trans ((hmid.agree p).nodeAt (by omega) i)
  · refine ⟨s', by rw [RDPF.createStep, if_neg hsize, if_neg hleaf, ← hs'], ?_⟩
    refine ⟨fun p => ⟨hmid.whichhalf p, hmid.maxdepth p, hmid.curdepth p, ?_, hmid.cw_length p,
      hmid.cfbits p, fun i hi => ?_⟩, hmid.cur, hmid.differ, fun l h1 hl hll => ?_⟩
    · rw [hmid.li, (h.shape p).li_length]
    · rw [hmid.leafCfbits, (h.shape p).leafCfbits i (by omega)]
    · -- a level that is not a leaf level adds none
      rcases hll with hinc | rfl
      · exact absurd (Or.inl hinc) hleaf
      · omega

/-- **The constructor** succeeds up to depth 30, and every leaf level it makes is well made. -/
theorem create_spec (prg : PRG WIDTH) (nthreads : Player → ℕ+) (seeds : Player → DPFnode)
    (target : Player → RegXS) {depth : Nat} (hdepth : depth ≤ RDPF.maxKeyDepth) (incremental save : Bool)
    (triples : Nat → LevelTriples WIDTH) :
    ∃ dpf, RDPF.create prg nthreads seeds target depth incremental save triples = some dpf ∧
      (∀ p, HalfShape depth incremental depth p (dpf p)) ∧
      ∀ l, 1 ≤ l → l ≤ depth → (incremental = true ∨ l = depth) →
        LeafLevelOk prg save l (targetAt (reconstructTarget target) depth l) dpf := by
  obtain ⟨s, hs, hinv⟩ := forRangeOpt_inv
    (fun level s => KeygenInv prg (reconstructTarget target) depth incremental save level s)
    (Nat.zero_le depth) (KeygenInv.init prg seeds (reconstructTarget target) depth incremental save)
    fun level s _ hlevel h => h.step nthreads triples hlevel hdepth
  exact ⟨fun p => (s p).dpf, by rw [RDPF.create, hs, Option.map_some], hinv.shape, hinv.leaves⟩

/-- Beyond that depth it fails, whatever its arguments are: the iteration at level 30 has no arrays. -/
theorem create_eq_none (prg : PRG WIDTH) (nthreads : Player → ℕ+) (seeds : Player → DPFnode)
    (target : Player → RegXS) {depth : Nat} (hdepth : RDPF.maxKeyDepth < depth)
    (incremental save : Bool) (triples : Nat → LevelTriples WIDTH) :
    RDPF.create prg nthreads seeds target depth incremental save triples = none := by
  have hstep s : RDPF.createStep prg nthreads target depth incremental save triples 30 s = none := by
    rw [RDPF.createStep]
    exact if_pos (le_refl 31)
  rw [RDPF.create, forRangeOpt_none (Nat.zero_le 30) hdepth hstep, Option.map_none]

/-! ## Evaluation of the finished halves -/

namespace RDPF

/-- Without a stored expansion, `leaf` walks down to the leaf at its index. -/
theorem leaf_eq_leafAt {dpf : RDPF WIDTH} (hdepth : 1 ≤ dpf.curdepth)
    (hexp : (dpf.li.getD (dpf.maxdepth - dpf.curdepth) default).expansion = []) (i : Nat) :
    dpf.leaf prg i = dpf.leafAt prg dpf.curdepth i := by
  have hwalk : forRange 0 (dpf.curdepth - 1) (fun d node =>
      dpf.descend prg.node node d (i.testBit (dpf.curdepth - d - 1))) dpf.seed =
        dpf.nodeAt prg.node (dpf.curdepth - 1) (i >>> (dpf.curdepth - (dpf.curdepth - 1))) := by
    refine forRange_inv (fun d node => node = dpf.nodeAt prg.node d (i >>> (dpf.curdepth - d)))
      (Nat.zero_le _) rfl ?_
    rintro d node - hd rfl
    exact (dpf.nodeAt_shiftRight prg.node i (by omega)).symm
  have hlast : dpf.curdepth - (dpf.curdepth - 1) = 1 := by omega
  rw [hlast] at hwalk
  simp only [leaf, hexp, List.length_nil, ne_eq, not_true_eq_false, if_false, hwalk, leafAt]
  rw [Bits.testBit_eq_beq i 0, Nat.shiftRight_zero, Nat.shiftRight_one]

/-- A stored expansion holds the leaves that `leaf` would compute. -/
theorem leaf_eq_of_expansion {dpf : RDPF WIDTH} {level : Nat} {child : Nat → LeafNode WIDTH}
    (hexp : (dpf.li.getD (dpf.maxdepth - dpf.curdepth) default).expansion =
      (List.range (2 ^ level)).map child) {i : Nat} (hi : i < 2 ^ level) :
    dpf.leaf prg i = child i := by
  have hne : 2 ^ level ≠ 0 := (Nat.two_pow_pos level).ne'
  simp only [leaf, hexp, List.length_map, List.length_range, if_pos hne]
  rw [List.getD_eq_getElem?_getD, List.getElem?_map, List.getElem?_range hi]
  rfl

theorem setDepth_curdepth {dpf : RDPF WIDTH} {level : Nat} (h1 : 1 ≤ level)
    (h2 : level ≤ dpf.maxdepth) : (dpf.setDepth level).curdepth = level := by
  show (if 0 < level ∧ level < dpf.maxdepth then level else dpf.maxdepth) = level
  split <;> omega

end RDPF

/-- At a well-made level `leaf` evaluates to the leaf, from the expansion or from the seed. -/
theorem LeafLevelOk.leaf_eq {dpf : Player → RDPF WIDTH} {t : Nat}
    (h : LeafLevelOk prg save level t dpf) {p : Player} (h1 : 1 ≤ level)
    (h2 : level ≤ (dpf p).maxdepth) {i : Nat} (hi : i < 2 ^ level) :
    ((dpf p).setDepth level).leaf prg i = (dpf p).leafAt prg level i := by
  have hcur := RDPF.setDepth_curdepth h1 h2
  have hexp := h.expansion p
  have hli : (((dpf p).setDepth level).li.getD (((dpf p).setDepth level).maxdepth -
      ((dpf p).setDepth level).curdepth) default).expansion =
        if save then (List.range (2 ^ level)).map ((dpf p).leafAt prg level) else [] := by
    rw [hcur]
    exact hexp
  cases save
  · refine (RDPF.leaf_eq_leafAt (by rwa [hcur]) hli i).trans ?_
    rw [hcur]
    rfl
  · exact RDPF.leaf_eq_of_expansion hli hi

/-- The bit shares of the unit vector. -/
theorem LeafLevelOk.unitBs {dpf : Player → RDPF WIDTH} {t : Nat}
    (h : LeafLevelOk prg save level t dpf) {i : Nat} (hi : i < 2 ^ level) :
    ((RDPF.unitBs ((dpf .p0).leafAt prg level i)).bshare ^^
      (RDPF.unitBs ((dpf .p1).leafAt prg level i)).bshare) = decide (i = t) := by
  by_cases hit : i = t
  · subst hit
    have hon : getLsb ((dpf .p0).leafAt prg level i 0) ≠ getLsb ((dpf .p1).leafAt prg level i 0) :=
      h.differ.on
    simpa [RDPF.unitBs] using hon
  · rw [h.differ.off i hi hit, Bool.xor_self, decide_eq_false hit]

/-- The additive shares of the unit vector: the inverse of the low sum scales the difference of the
target's low words to 1. -/
theorem LeafLevelOk.unitAs {dpf : Player → RDPF WIDTH} {t : Nat}
    (h : LeafLevelOk prg save level t dpf) (h0 : (dpf .p0).whichhalf = false)
    (h1 : (dpf .p1).whichhalf = true) (hlevel : 1 ≤ level) (hmax0 : level ≤ (dpf .p0).maxdepth)
    (hmax1 : level ≤ (dpf .p1).maxdepth) {i : Nat} (hi : i < 2 ^ level) :
    ((dpf .p0).setDepth level).unitAs ((dpf .p0).leafAt prg level i) +
      ((dpf .p1).setDepth level).unitAs ((dpf .p1).leafAt prg level i) =
        if i = t then 1 else 0 := by
  have hinv := h.inverse
  obtain ⟨inv, hinv0⟩ : ∃ inv,
    inv = ((dpf .p0).li.getD ((dpf .p0).maxdepth - level) default).unitSumInverse := ⟨_, rfl⟩
  have hshare0 : ((dpf .p0).setDepth level).unitAs ((dpf .p0).leafAt prg level i) =
      ⟨lowWord ((dpf .p0).leafAt prg level i 0) * inv⟩ := by
    simp only [RDPF.unitAs, RDPF.setDepth_curdepth hlevel hmax0]
    simp only [RDPF.setDepth, h0, Bool.false_eq_true, if_false, hinv0]
  have hshare1 : ((dpf .p1).setDepth level).unitAs ((dpf .p1).leafAt prg level i) =
      ⟨-lowWord ((dpf .p1).leafAt prg level i 0) * inv⟩ := by
    simp only [RDPF.unitAs, RDPF.setDepth_curdepth hlevel hmax1]
    simp only [RDPF.setDepth, h1, if_true, hinv0, hinv]
  rw [hshare0, hshare1]
  ext1
  show _ * inv + -_ * inv = RegAS.ashare (if i = t then 1 else 0)
  rw [← add_mul, ← sub_eq_add_neg]
  by_cases hit : i = t
  · rw [if_pos hit, hit, hinv0]
    exact h.unit
  · rw [if_neg hit, h.differ.off i hi hit, sub_self, zero_mul]
    rfl

/-- What key generation is for: the constructor succeeds (no allocation fails, and the low sum is
odd), and at every leaf level the two halves' leaves are equal off the target and differ in the flag
at it, whether computed by `leaf` or by descending from the seed; their bit shares and additive shares
reconstruct to the target's unit vector. -/
def RDPF.CreatesKeys (prg : PRG WIDTH) (nthreads : Player → ℕ+) (seeds : Player → DPFnode)
    (target : Player → RegXS) (depth : Nat) (incremental save : Bool)
    (triples : Nat → LevelTriples WIDTH) : Prop :=
  ∃ dpf, RDPF.create prg nthreads seeds target depth incremental save triples = some dpf ∧
    ∀ level, 1 ≤ level → level ≤ depth → (incremental = true ∨ level = depth) →
      ∃ t, t = (((target .p0).xshare ^^^ (target .p1).xshare).toNat % 2 ^ depth) >>>
        (depth - level) ∧ t < 2 ^ level ∧
      ∀ d : Player → RDPF WIDTH, (∀ p, d p = (dpf p).setDepth level) → ∀ i < 2 ^ level,
        (i ≠ t → (d .p0).leaf prg i = (d .p1).leaf prg i ∧
          (d .p0).leafAt prg level i = (d .p1).leafAt prg level i) ∧
        (i = t → LeafNode.getLsb ((d .p0).leaf prg i) ≠ LeafNode.getLsb ((d .p1).leaf prg i) ∧
          LeafNode.getLsb ((d .p0).leafAt prg level i) ≠
            LeafNode.getLsb ((d .p1).leafAt prg level i)) ∧
        ((RDPF.unitBs ((d .p0).leaf prg i)).bshare ^^ (RDPF.unitBs ((d .p1).leaf prg i)).bshare) =
          decide (i = t) ∧
        (d .p0).unitAs ((d .p0).leaf prg i) + (d .p1).unitAs ((d .p1).leaf prg i) =
          if i = t then 1 else 0

/-- **RDPF key generation is correct exactly up to depth 30**, for arbitrary PRGs, seeds, targets,
thread counts and select triples. -/
theorem rdpf_create_correct_iff (prg : PRG WIDTH) (nthreads : Player → ℕ+) (seeds : Player → DPFnode)
    (target : Player → RegXS) (depth : Nat) (incremental save : Bool)
    (triples : Nat → LevelTriples WIDTH) :
    RDPF.CreatesKeys prg nthreads seeds target depth incremental save triples ↔ depth ≤ 30 := by
  constructor
  · rintro ⟨dpf, hcreate, -⟩
    by_contra hdepth
    rw [create_eq_none prg nthreads seeds target (Nat.not_le.mp hdepth)] at hcreate
    cases hcreate
  intro hdepth
  obtain ⟨dpf, hcreate, hshape, hok⟩ :=
    create_spec prg nthreads seeds target hdepth incremental save triples
  refine ⟨dpf, hcreate, fun level h1 h2 hleaf => ?_⟩
  have h := hok level h1 h2 hleaf
  refine ⟨targetAt (reconstructTarget target) depth level, rfl, h.differ.lt, fun d hd i hi => ?_⟩
  have hmax p : level ≤ (dpf p).maxdepth := by rw [(hshape p).maxdepth]; exact h2
  have hleaf p : (d p).leaf prg i = (dpf p).leafAt prg level i := by
    rw [hd]
    exact h.leaf_eq h1 (hmax p) hi
  have hleafAt p : (d p).leafAt prg level i = (dpf p).leafAt prg level i := by
    rw [hd]
    rfl
  simp only [hleaf, hleafAt]
  refine ⟨fun hne => ⟨h.differ.off i hi hne, h.differ.off i hi hne⟩, ?_, h.unitBs hi, ?_⟩
  · rintro rfl
    exact ⟨h.differ.on, h.differ.on⟩
  · rw [hd, hd]
    exact h.unitAs (hshape .p0).whichhalf (hshape .p1).whichhalf h1 (hmax .p0) (hmax .p1) hi

/-- The constructor fails at depth 31. -/
theorem not_createsKeys_deep : ¬RDPF.CreatesKeys (⟨fun _ _ => 0, fun _ _ => 0⟩ : PRG 1) (fun _ => 1)
    (fun _ => 0) (fun _ => ⟨0⟩) 31 false false
    (fun _ => ⟨requestNodeselecttriples 0 0 0, fun _ => requestNodeselecttriples 0 0 0⟩) := by
  rintro ⟨dpf, hcreate, -⟩
  rw [create_eq_none _ _ _ _ (Nat.lt_succ_self 30)] at hcreate
  cases hcreate

end Prac
