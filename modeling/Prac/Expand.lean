import Prac.DuoramKeys

/-!
# Expanding a leaf layer (`rdpf.tcc`)

* `RDPF.expandLeafLayer` — `expand_leaf_layer`: a depth-first walk over the leaves of one level, two at a
  time, along a path that is repaired from the bits of the index that change.  The index is an
  `address_t`, and the walk ends when it reaches the number of leaves.
* `WalkInv` — its invariant; `expandLoop_spec` — up to level 31 the walk ends with all leaves.
* `expandLoop_none` — at level 32 the index is always below the number of leaves.
* `expands_iff` — the level is expanded to what `leaf` evaluates if and only if it has at most 31 levels
  above it, or has been expanded before.
-/

namespace Prac

open Loop

variable {WIDTH : Nat}

/-- The local variables of `expand_leaf_layer`. -/
structure ExpandState (WIDTH : Nat) where
  index : Nat
  lastindex : Nat
  path : Nat → DPFnode
  expansion : Nat → LeafNode WIDTH

namespace RDPF

/-- `index++` on an `address_t`. -/
def incrIndex (index : Nat) : Nat := (index + 1) % 2 ^ addressMaxBits

/-- The two leaves under the end of the path are stored. -/
def expandPair (prg : PRG WIDTH) (dpf : RDPF WIDTH) (depth : Nat) (s : ExpandState WIDTH) :
    ExpandState WIDTH :=
  let left := dpf.descendToLeaf prg (s.path (depth - 1)) (depth - 1) false
  let right := dpf.descendToLeaf prg (s.path (depth - 1)) (depth - 1) true
  { s with
    expansion := Function.update (Function.update s.expansion s.index left) (incrIndex s.index) right
    index := incrIndex (incrIndex s.index) }

/-- The path to the left child of the highest node that changes, and from there to the left. -/
def expandPath (prg : PRG WIDTH) (dpf : RDPF WIDTH) (depth howMany1Bits : Nat)
    (path : Nat → DPFnode) : Nat → DPFnode :=
  let path := Function.update path (depth - howMany1Bits)
    (dpf.descend prg.node (path (depth - howMany1Bits - 1)) (depth - howMany1Bits - 1) true)
  forRange (depth - howMany1Bits) (depth - 1) (fun i path =>
    Function.update path (i + 1) (dpf.descend prg.node (path i) i false)) path

/-- One iteration of the `while` loop. -/
def expandStep (prg : PRG WIDTH) (dpf : RDPF WIDTH) (depth : Nat) (s : ExpandState WIDTH) :
    ExpandState WIDTH :=
  let indexXor := s.index ^^^ s.lastindex
  let howMany1Bits := Bits.popcount 32 indexXor
  expandPair prg dpf depth { s with
    path := expandPath prg dpf depth howMany1Bits s.path
    lastindex := s.index }

/-- `while (index < num_leaves)`, for at most `fuel` tests of the condition. -/
def expandLoop (prg : PRG WIDTH) (dpf : RDPF WIDTH) (depth : Nat) :
    Nat → ExpandState WIDTH → Option (ExpandState WIDTH)
  | 0, _ => none
  | fuel + 1, s =>
    if s.index < 2 ^ depth then expandLoop prg dpf depth fuel (expandStep prg dpf depth s) else some s

/-- The state before the `while` loop: the path to leaf 0, and the first two leaves. -/
def expandStart (prg : PRG WIDTH) (dpf : RDPF WIDTH) (depth : Nat) (expansion : List (LeafNode WIDTH)) :
    ExpandState WIDTH :=
  let path := forRange 1 depth (fun i path =>
    Function.update path i (dpf.descend prg.node (path (i - 1)) (i - 1) false))
    (Function.update 0 0 dpf.seed)
  expandPair prg dpf depth ⟨0, 0, path, fun i => expansion.getD i 0⟩

/-- `RDPF::expand_leaf_layer`; `none` if the loop is still running when the fuel is used up. -/
def expandLeafLayer (prg : PRG WIDTH) (dpf : RDPF WIDTH) (liIndex fuel : Nat) :
    Option (RDPF WIDTH) :=
  let depth := dpf.maxdepth - liIndex
  let numLeaves := 2 ^ depth
  let info := dpf.li.getD liIndex default
  if info.expansion.length = numLeaves then some dpf
  else
    (expandLoop prg dpf depth fuel (expandStart prg dpf depth info.expansion)).map fun s =>
      let expanded := { info with expansion := (List.range numLeaves).map s.expansion }
      { dpf with li := dpf.li.set liIndex expanded }

/-! ## The walk -/

/-- After `m` pairs: they are the leaves, and the path leads to the last of them. -/
structure WalkInv (prg : PRG WIDTH) (dpf : RDPF WIDTH) (depth m : Nat) (s : ExpandState WIDTH) :
    Prop where
  index : s.index = 2 * m
  last : s.lastindex = 2 * (m - 1)
  path : ∀ i < depth, s.path i = dpf.nodeAt prg.node i ((m - 1) >>> (depth - 1 - i))
  leaves : ∀ i < 2 * m, s.expansion i = dpf.leafAt prg depth i

theorem incrIndex_eq {index : Nat} (h : index + 1 < 2 ^ addressMaxBits) :
    incrIndex index = index + 1 := Nat.mod_eq_of_lt h

/-- The leaves under the end of a path. -/
theorem leafAt_pair (prg : PRG WIDTH) (dpf : RDPF WIDTH) {depth : Nat} (m : Nat) (b : Bool) :
    dpf.descendToLeaf prg (dpf.nodeAt prg.node (depth - 1) m) (depth - 1) b =
      dpf.leafAt prg depth (2 * m + b.toNat) := by
  have hdiv : (2 * m + b.toNat) / 2 = m := by
    have := b.toNat_lt
    omega
  have hmod : ((2 * m + b.toNat) % 2 == 1) = b := by
    cases b <;> simp
  rw [leafAt, hdiv, hmod]

/-- Storing the pair under the end of the path. -/
theorem WalkInv.pair {prg : PRG WIDTH} {dpf : RDPF WIDTH} {depth m : Nat} {s : ExpandState WIDTH}
    (hdepth : 0 < depth) (hm : 2 * m + 2 < 2 ^ addressMaxBits) (hindex : s.index = 2 * m)
    (hlast : s.lastindex = 2 * m)
    (hpath : ∀ i < depth, s.path i = dpf.nodeAt prg.node i (m >>> (depth - 1 - i)))
    (hleaves : ∀ i < 2 * m, s.expansion i = dpf.leafAt prg depth i) :
    WalkInv prg dpf depth (m + 1) (expandPair prg dpf depth s) := by
  have hend : s.path (depth - 1) = dpf.nodeAt prg.node (depth - 1) m := by
    rw [hpath _ (by omega), Nat.sub_self, Nat.shiftRight_zero]
  have hincr : incrIndex s.index = 2 * m + 1 := by rw [hindex, incrIndex_eq (by omega)]
  refine ⟨?_, hlast, hpath, fun i hi => ?_⟩
  · show incrIndex (incrIndex s.index) = _
    rw [hincr, incrIndex_eq (by omega)]
    omega
  · show Function.update (Function.update s.expansion s.index _) (incrIndex s.index) _ i = _
    rw [hincr, hindex, hend]
    by_cases hright : i = 2 * m + 1
    · rw [hright, Function.update_self]
      exact leafAt_pair prg dpf m true
    · rw [Function.update_of_ne hright]
      by_cases hleft : i = 2 * m
      · rw [hleft, Function.update_self]
        exact leafAt_pair prg dpf m false
      · rw [Function.update_of_ne hleft]
        exact hleaves i (by omega)

/-- The walk starts with the first pair stored. -/
theorem walkInv_start (prg : PRG WIDTH) (dpf : RDPF WIDTH) {depth : Nat} (hdepth : 0 < depth)
    (expansion : List (LeafNode WIDTH)) :
    WalkInv prg dpf depth 1 (expandStart prg dpf depth expansion) := by
  refine WalkInv.pair hdepth (by decide) rfl rfl ?_ fun i hi => absurd hi (Nat.not_lt_zero i)
  have hzero (k : Nat) : (0 : Nat) >>> k = 0 := Nat.zero_shiftRight k
  simp only [hzero]
  refine forRange_inv (fun i (path : Nat → DPFnode) =>
    ∀ j < i, path j = dpf.nodeAt prg.node j 0) hdepth ?_ ?_
  · intro j hj
    obtain rfl : j = 0 := by omega
    rfl
  · intro i path hi _ hpath j hj
    obtain ⟨i, rfl⟩ : ∃ k, i = k + 1 := ⟨i - 1, by omega⟩
    by_cases hlast : j = i + 1
    · rw [hlast, Function.update_self, Nat.add_sub_cancel, hpath i (Nat.lt_succ_self i)]
      rfl
    · rw [Function.update_of_ne hlast]
      exact hpath j (by omega)

/-- The bits that change from one pair to the next: the lowest of them that is set in the new index, at
`k`, has the others below it, which are cleared. -/
theorem pair_carry {d q : Nat} (hd : d ≤ 31) (hq : q + 1 < 2 ^ d) :
    ∃ k < d, Bits.popcount 32 ((2 * (q + 1)) ^^^ (2 * q)) = k + 1 ∧
      (q + 1) >>> (k + 1) = q >>> (k + 1) ∧ (q + 1).testBit k = true ∧
      ∀ j < k, (q + 1).testBit j = false := by
  have hdpos : 0 < d := by
    by_contra h
    obtain rfl : d = 0 := by omega
    omega
  obtain ⟨k, hk, hcount, -, hsame, hzero⟩ :=
    Bits.counter_carry (n := 31) hdpos hd (Nat.lt_of_succ_lt hq)
  rw [Nat.mod_eq_of_lt hq] at hcount hsame hzero
  refine ⟨k, hk, ?_, hsame, ?_, hzero⟩
  · have hxor : (2 * (q + 1)) ^^^ (2 * q) = 2 * ((q + 1) ^^^ q) :=
      Bits.two_mul_add_xor (q + 1) q false false
    have hpop : Bits.popcount 32 (2 * ((q + 1) ^^^ q)) = Bits.popcount 31 ((q + 1) ^^^ q) := by
      simpa using Bits.popcount_two_mul_add 31 ((q + 1) ^^^ q) false
    rw [hxor, hpop, hcount]
  · -- otherwise the new index has nothing but the prefix it shares with the old one
    by_contra hbit
    have hlow : (q + 1) % 2 ^ (k + 1) = 0 := by
      apply Nat.eq_of_testBit_eq
      intro j
      rw [Nat.testBit_mod_two_pow, Nat.zero_testBit, Bool.and_eq_false_imp]
      intro hj
      rcases Nat.lt_succ_iff_lt_or_eq.mp (of_decide_eq_true hj) with hlt | rfl
      · exact hzero j hlt
      · exact Bool.eq_false_iff.mpr hbit
    have hnew := Nat.div_add_mod (q + 1) (2 ^ (k + 1))
    have hold := Nat.div_mul_le_self q (2 ^ (k + 1))
    rw [Nat.shiftRight_eq_div_pow, Nat.shiftRight_eq_div_pow] at hsame
    rw [hlow, hsame, Nat.mul_comm] at hnew
    omega

/-- The repaired path leads to the next pair. -/
theorem expandPath_spec {prg : PRG WIDTH} {dpf : RDPF WIDTH} {depth q k : Nat}
    {path : Nat → DPFnode} (hk : k + 1 < depth)
    (hpath : ∀ i < depth, path i = dpf.nodeAt prg.node i (q >>> (depth - 1 - i)))
    (hsame : (q + 1) >>> (k + 1) = q >>> (k + 1)) (hbit : (q + 1).testBit k = true)
    (hzero : ∀ j < k, (q + 1).testBit j = false) :
    ∀ i < depth, expandPath prg dpf depth (k + 1) path i =
      dpf.nodeAt prg.node i ((q + 1) >>> (depth - 1 - i)) := by
  -- the levels above the change are those of the last pair
  have hkeep : ∀ i < depth - (k + 1), path i =
      dpf.nodeAt prg.node i ((q + 1) >>> (depth - 1 - i)) := by
    intro i hi
    have hsplit : depth - 1 - i = k + 1 + (depth - 1 - i - (k + 1)) := by omega
    rw [hpath i (by omega), hsplit, Nat.shiftRight_add q, Nat.shiftRight_add (q + 1), hsame]
  have hpush (i : Nat) (hi : i + 1 < depth) (b : Bool) (hb : (q + 1).testBit (depth - 1 - (i + 1)) = b)
      (p : Nat → DPFnode) (hp : ∀ j < i + 1, p j = dpf.nodeAt prg.node j ((q + 1) >>> (depth - 1 - j))) :
      ∀ j < i + 2, Function.update p (i + 1) (dpf.descend prg.node (p i) i b) j =
        dpf.nodeAt prg.node j ((q + 1) >>> (depth - 1 - j)) := by
    intro j hj
    by_cases hlast : j = i + 1
    · have hnode := dpf.nodeAt_shiftRight prg.node (q + 1) (show i < depth - 1 by omega)
      rw [hlast, Function.update_self, hp i (Nat.lt_succ_self i), ← hb, hnode]
      rfl
    · rw [Function.update_of_ne hlast]
      exact hp j (by omega)
  have htop : depth - (k + 1) - 1 + 1 = depth - (k + 1) := by omega
  have hloop : ∀ j < depth - 1 + 1, expandPath prg dpf depth (k + 1) path j =
      dpf.nodeAt prg.node j ((q + 1) >>> (depth - 1 - j)) := by
    refine forRange_inv (fun i (p : Nat → DPFnode) => ∀ j < i + 1,
      p j = dpf.nodeAt prg.node j ((q + 1) >>> (depth - 1 - j))) (by omega) ?_ ?_
    · have hstart := hpush (depth - (k + 1) - 1) (by omega) true
        (by rw [show depth - 1 - (depth - (k + 1) - 1 + 1) = k by omega, hbit]) path
        (by rw [htop]; exact hkeep)
      rwa [htop, show depth - (k + 1) - 1 + 2 = depth - (k + 1) + 1 by omega] at hstart
    · intro i p hi hlt hp
      exact hpush i (by omega) false (hzero _ (by omega)) p hp
  intro i hi
  exact hloop i (by omega)

/-- One iteration stores the next pair. -/
theorem WalkInv.step {prg : PRG WIDTH} {dpf : RDPF WIDTH} {depth m : Nat} {s : ExpandState WIDTH}
    (h : WalkInv prg dpf depth m s) (hdepth : depth ≤ 31) (hm : 1 ≤ m) (hmore : 2 * m < 2 ^ depth) :
    WalkInv prg dpf depth (m + 1) (expandStep prg dpf depth s) := by
  obtain ⟨q, rfl⟩ : ∃ q, m = q + 1 := ⟨m - 1, by omega⟩
  have hbig : 2 ^ depth ≤ 2 ^ 31 := Nat.pow_le_pow_right Nat.two_pos hdepth
  obtain ⟨d, rfl⟩ : ∃ d, depth = d + 1 := by
    refine ⟨depth - 1, (Nat.sub_add_cancel ?_).symm⟩
    by_contra hzero
    obtain rfl : depth = 0 := by omega
    omega
  have hq : q + 1 < 2 ^ d := by
    rw [Nat.pow_succ'] at hmore
    omega
  obtain ⟨k, hk, hcount, hsame, hbit, hzero⟩ := pair_carry (by omega) hq
  have haddr : 2 ^ addressMaxBits = 2 * 2 ^ 31 := Nat.pow_succ'
  have hones : Bits.popcount 32 (s.index ^^^ s.lastindex) = k + 1 := by
    rw [h.index, h.last, Nat.add_sub_cancel, hcount]
  have hstep : expandStep prg dpf (d + 1) s = expandPair prg dpf (d + 1)
      ⟨s.index, s.index, expandPath prg dpf (d + 1) (k + 1) s.path, s.expansion⟩ := by
    rw [expandStep, hones]
  rw [hstep]
  exact WalkInv.pair (Nat.succ_pos d) (by omega) h.index h.index
    (expandPath_spec (by omega) h.path hsame hbit hzero) h.leaves

/-- Up to level 31 the loop ends with all leaves. -/
theorem expandLoop_spec {prg : PRG WIDTH} {dpf : RDPF WIDTH} {depth m : Nat} {s : ExpandState WIDTH}
    (h : WalkInv prg dpf depth m s) (hdepth : depth ≤ 31) (hpos : 1 ≤ depth) (hm : 1 ≤ m)
    (hle : 2 * m ≤ 2 ^ depth) {fuel : Nat} (hfuel : 2 ^ depth < 2 * (m + fuel)) :
    ∃ s', expandLoop prg dpf depth fuel s = some s' ∧
      ∀ i < 2 ^ depth, s'.expansion i = dpf.leafAt prg depth i := by
  induction fuel generalizing m s with
  | zero => omega
  | succ fuel ih =>
      rw [expandLoop]
      by_cases hmore : 2 * m < 2 ^ depth
      · rw [if_pos (h.index ▸ hmore)]
        have heven : 2 ^ depth = 2 * 2 ^ (depth - 1) := by
          rw [← Nat.pow_succ', Nat.succ_eq_add_one, Nat.sub_add_cancel hpos]
        exact ih (h.step hdepth hm hmore) (Nat.le_add_left 1 m) (by omega) (by omega)
      · rw [if_neg (h.index ▸ hmore)]
        have hall : 2 ^ depth = 2 * m := by omega
        exact ⟨s, rfl, hall ▸ h.leaves⟩

/-- At level 32 every index of 32 bits is below the number of leaves. -/
theorem expandLoop_none (prg : PRG WIDTH) (dpf : RDPF WIDTH) (fuel : Nat) {s : ExpandState WIDTH}
    (hs : s.index < 2 ^ addressMaxBits) : expandLoop prg dpf addressMaxBits fuel s = none := by
  induction fuel generalizing s with
  | zero => rfl
  | succ fuel ih =>
      rw [expandLoop, if_pos hs]
      exact ih (Nat.mod_lt _ (Nat.two_pow_pos _))

/-! ## Expanding a level -/

/-- The leaves of a level that is expanded. -/
def levelExpansion (dpf : RDPF WIDTH) (liIndex : Nat) : List (LeafNode WIDTH) :=
  (dpf.li.getD liIndex default).expansion

/-- The level has all its leaves, and they are what `leaf` evaluates without an expansion. -/
def Expanded (prg : PRG WIDTH) (dpf : RDPF WIDTH) (level : Nat) (leaves : List (LeafNode WIDTH)) :
    Prop :=
  leaves.length = 2 ^ level ∧
    ∀ i < 2 ^ level, leaves.getD i 0 = (dpf.received.setDepth level).leaf prg i

/-- `expand_leaf_layer` returns, and the level is expanded. -/
def Expands (prg : PRG WIDTH) (dpf : RDPF WIDTH) (liIndex : Nat) : Prop :=
  ∃ fuel dpf', dpf.expandLeafLayer prg liIndex fuel = some dpf' ∧
    Expanded prg dpf (dpf.maxdepth - liIndex) (dpf'.levelExpansion liIndex)

/-- A level that is not expanded is walked over. -/
theorem expandLeafLayer_run (prg : PRG WIDTH) {dpf : RDPF WIDTH} {liIndex depth : Nat}
    (hdepth : dpf.maxdepth - liIndex = depth)
    (hnot : (dpf.levelExpansion liIndex).length ≠ 2 ^ depth) (fuel : Nat) :
    dpf.expandLeafLayer prg liIndex fuel =
      (expandLoop prg dpf depth fuel (expandStart prg dpf depth (dpf.levelExpansion liIndex))).map
        fun s =>
          let expanded := { dpf.li.getD liIndex default with
            expansion := (List.range (2 ^ depth)).map s.expansion }
          { dpf with li := dpf.li.set liIndex expanded } := by
  simp only [expandLeafLayer, hdepth]
  exact if_neg hnot

/-- At level 32 the walk does not end. -/
theorem expandLeafLayer_none (prg : PRG WIDTH) {dpf : RDPF WIDTH} {liIndex : Nat}
    (hdepth : dpf.maxdepth - liIndex = addressMaxBits)
    (hnot : (dpf.levelExpansion liIndex).length ≠ 2 ^ addressMaxBits) (fuel : Nat) :
    dpf.expandLeafLayer prg liIndex fuel = none := by
  rw [expandLeafLayer_run prg hdepth hnot,
    expandLoop_none prg dpf fuel (Nat.mod_lt _ (Nat.two_pow_pos _))]
  rfl

/-- Without its expansions an RDPF evaluates its leaves from the seed. -/
theorem received_leaf (prg : PRG WIDTH) (dpf : RDPF WIDTH) {level : Nat} (h1 : 1 ≤ level)
    (h2 : level ≤ dpf.maxdepth) (i : Nat) :
    (dpf.received.setDepth level).leaf prg i = dpf.leafAt prg level i := by
  have hcur : (dpf.received.setDepth level).curdepth = level := setDepth_curdepth h1 h2
  have hexp : ((dpf.received.setDepth level).li.getD ((dpf.received.setDepth level).maxdepth -
      (dpf.received.setDepth level).curdepth) default).expansion = [] := by
    show (dpf.received.li.getD _ default).expansion = []
    rw [received_li]
    rfl
  rw [leaf_eq_leafAt (hcur.symm ▸ h1) hexp, hcur]
  simp only [leafAt, descendToLeaf_eq_correctChild]
  show correctChild prg.leaf (dpf.received.li.getD _ default).leafCw _ _ _ = _
  rw [received_li]
  rfl

/-- **Expanding a leaf layer**: it ends with the leaves that `leaf` evaluates if and only if the level is
at most 31, or it was expanded before. -/
theorem expands_iff (prg : PRG WIDTH) {dpf : RDPF WIDTH} (hmax : dpf.maxdepth ≤ addressMaxBits)
    {liIndex : Nat} (hli : liIndex < dpf.li.length) (hlevel : 1 ≤ dpf.maxdepth - liIndex)
    (hexp : (dpf.levelExpansion liIndex).length = 2 ^ (dpf.maxdepth - liIndex) →
      Expanded prg dpf (dpf.maxdepth - liIndex) (dpf.levelExpansion liIndex)) :
    Expands prg dpf liIndex ↔ dpf.maxdepth - liIndex ≤ 31 ∨
      (dpf.levelExpansion liIndex).length = 2 ^ (dpf.maxdepth - liIndex) := by
  generalize hdepth : dpf.maxdepth - liIndex = depth at hlevel hexp ⊢
  have hle : depth ≤ dpf.maxdepth := by omega
  constructor
  · rintro ⟨fuel, dpf', hsome, -⟩
    by_contra hnot
    push Not at hnot
    have hfull : depth = addressMaxBits := by
      have haddr : addressMaxBits = 32 := rfl
      omega
    rw [expandLeafLayer_none prg (hdepth.trans hfull) (hfull ▸ hnot.2) fuel] at hsome
    cases hsome
  · intro hcond
    by_cases hdone : (dpf.levelExpansion liIndex).length = 2 ^ depth
    · refine ⟨0, dpf, ?_, hdepth ▸ hexp hdone⟩
      simp only [expandLeafLayer, hdepth]
      exact if_pos hdone
    · have hsmall : depth ≤ 31 := hcond.resolve_right hdone
      have htwo : 2 * 1 ≤ 2 ^ depth := Nat.pow_le_pow_right Nat.two_pos hlevel
      obtain ⟨s, hloop, hleaves⟩ := expandLoop_spec
        (walkInv_start prg dpf hlevel (dpf.levelExpansion liIndex)) hsmall hlevel le_rfl htwo
        (show 2 ^ depth < 2 * (1 + 2 ^ depth) by omega)
      refine ⟨2 ^ depth, _, by rw [expandLeafLayer_run prg hdepth hdone, hloop]; rfl, ?_⟩
      have hnew : (({ dpf with li := dpf.li.set liIndex { dpf.li.getD liIndex default with
          expansion := (List.range (2 ^ depth)).map s.expansion } } : RDPF WIDTH).levelExpansion
            liIndex) = (List.range (2 ^ depth)).map s.expansion := by
        simp [levelExpansion, hli]
      rw [hdepth, hnew]
      refine ⟨by simp, fun i hi => ?_⟩
      rw [received_leaf prg dpf hlevel hle, ← hleaves i hi, List.getD_eq_getElem?_getD,
        List.getElem?_map, List.getElem?_range hi]
      rfl

end RDPF

/-- Half of an RDPF with one leaf level and no expansion. -/
def plainRdpf (depth : Nat) : RDPF 1 where
  seed := 0
  whichhalf := false
  cw := []
  cfbits := 0
  maxdepth := depth
  curdepth := depth
  li := [⟨0, 1, 0, 0, []⟩]
  leafCfbits := 0

/-- A PRG of zeros. -/
def zeroPrg (WIDTH : Nat) : PRG WIDTH := ⟨fun _ _ => 0, fun _ _ _ => 0⟩

/-- Depth 31, the deepest that is expanded. -/
theorem RDPF.expands_plain : Expands (zeroPrg 1) (plainRdpf 31) 0 :=
  (expands_iff (zeroPrg 1) (by decide) (by decide) (by decide)
    (fun h => absurd h (by decide))).mpr (Or.inl (by decide))

/-- At depth 32 the loop never ends. -/
theorem RDPF.not_expands_plain :
    (∀ fuel, (plainRdpf 32).expandLeafLayer (zeroPrg 1) 0 fuel = none) ∧
      ¬Expands (zeroPrg 1) (plainRdpf 32) 0 := by
  have hnone (fuel : Nat) : (plainRdpf 32).expandLeafLayer (zeroPrg 1) 0 fuel = none :=
    expandLeafLayer_none (zeroPrg 1) rfl (by decide) fuel
  refine ⟨hnone, ?_⟩
  rintro ⟨fuel, dpf', hsome, -⟩
  rw [hnone fuel] at hsome
  cases hsome

end Prac
