import Prac.DuoramMem

/-!
# The keys of an access

* `OblivIndex.Valid` — valid keys: three pairs of RDPFs with unit vectors of one target, of which the
  server holds two copies; `OblivIndex.UpdateValid` — the same for updates, with scaled values.
* `LeafLevelOk.unitShares_as`, `unitShares_xs`, `scaledShares_as`, `scaledShares_xs` — what the leaf
  levels that key generation makes give at the two cell types.
* `Distributed` — the keys as the three parties hold them.
* `KeysOk.updateValid_as`, `KeysOk.updateValid_xs` — such keys are valid.
-/

namespace Prac

open Xor

/-! ## Valid keys -/

section Valid

variable {U : Type} [SharedIndex U] {WIDTH : Nat}

/-- The shares of a unit vector that the leaves of two halves give at every index. -/
def UnitShares (T : Type) [Register T] (prg : PRG WIDTH) (d : Player → RDPF WIDTH)
    (depth target : Nat) : Prop :=
  ∀ x < 2 ^ depth,
    (Register.unit (d .p0) ((d .p0).leafAt prg depth x) +
      Register.unit (d .p1) ((d .p1).leafAt prg depth x) : T) = if x = target then 1 else 0

/-- The target that the two players share. -/
def OblivIndex.target (ox : OblivIndex U WIDTH) (depth : Nat) : Nat :=
  (SharedIndex.combine (SharedIndex.getTarget (ox.dt .p0) : U) (SharedIndex.getTarget (ox.dt .p1))
    depth).toNat

/-- The keys of one access are valid: at every party the RDPFs can be evaluated, the three pairs of P0
and P1 are unit vectors of the target that the two share, and the server holds copies of P0's
second and of P1's third. -/
structure OblivIndex.Valid (T : Type) [Register T] (prg : PRG WIDTH) (depth : Nat)
    (ox : OblivIndex U WIDTH) : Prop where
  ready : ∀ p, (ox.dt p).dpf.Ready prg
  serverReady : ox.dp.Ready prg
  depth_eq : ∀ p k, ((ox.dt p).dpf k).curdepth = depth
  copy0 : (ox.dp 0).IsCopy ((ox.dt .p0).dpf 1)
  copy1 : (ox.dp 1).IsCopy ((ox.dt .p1).dpf 2)
  unit : ∀ k, UnitShares T prg (fun p => (ox.dt p).dpf k) depth (ox.target depth)

/-- A leaf depends on the key, not on the expansions that are stored with it. -/
theorem RDPF.IsCopy.leafAt {d d' : RDPF WIDTH} (h : d.IsCopy d') (prg : PRG WIDTH) (level i : Nat) :
    d.leafAt prg level i = d'.leafAt prg level i := by
  simp only [RDPF.leafAt, RDPF.descendToLeaf_eq_correctChild, h.toDPF, h.maxdepth, h.leafCfbits,
    h.leafCw]

/-- Valid keys for updates: the scaled words of a pair's leaves, at either width that the code can
evaluate, are shares of the scaled values at the target and of 0 elsewhere. -/
structure OblivIndex.UpdateValid (T : Type) [Register T] (prg : PRG WIDTH) (depth : Nat)
    (ox : OblivIndex U WIDTH) : Prop extends ox.Valid T prg depth where
  scaled : ∀ k, ∀ x < 2 ^ depth, ∀ s : Player → Fin WIDTH → T,
    (∀ p, Register.scaled ((ox.dt p).dpf k) (((ox.dt p).dpf k).leafAt prg depth x) = some (s p)) →
    ∀ j, s .p0 j + s .p1 j =
      if x = ox.target depth then MemRefS.scaledVal (ox.dt .p0) k j + MemRefS.scaledVal (ox.dt .p1) k j
      else 0

end Valid

variable {WIDTH : Nat} {prg : PRG WIDTH} {save : Bool} {level t : Nat} {dpf : Player → RDPF WIDTH}

/-! ## The two cell types -/

theorem LeafLevelOk.unitShares_as (h : LeafLevelOk prg save level t dpf)
    (hhalf : ∀ p, (dpf p).whichhalf = p.bit) (hlevel : 1 ≤ level)
    (hmax : ∀ p, level ≤ (dpf p).maxdepth) :
    UnitShares RegAS prg (fun p => (dpf p).setDepth level) level t :=
  fun _ hi => h.unitAs (hhalf .p0) (hhalf .p1) hlevel (hmax .p0) (hmax .p1) hi

theorem LeafLevelOk.unitShares_xs (h : LeafLevelOk prg save level t dpf) :
    UnitShares RegXS prg (fun p => (dpf p).setDepth level) level t := by
  intro i hi
  show RegXS.ofBS (RDPF.unitBs ((dpf .p0).leafAt prg level i)) +
    RegXS.ofBS (RDPF.unitBs ((dpf .p1).leafAt prg level i)) = _
  refine (RegXS.ofBS_xor _ _).trans ?_
  have hbits := h.unitBs hi
  unfold RDPF.unitBs at hbits
  rw [hbits]
  by_cases hit : i = t
  · rw [if_pos hit, decide_eq_true hit]
    rfl
  · rw [if_neg hit, decide_eq_false hit]
    rfl

theorem LeafLevelOk.scaledWord_off (h : LeafLevelOk prg save level t dpf) {j : Fin WIDTH} :
    ∀ x < 2 ^ level, x ≠ t → scaledWord ((dpf .p0).leafAt prg level x) j =
      scaledWord ((dpf .p1).leafAt prg level x) j := by
  intro x hx hne
  rw [h.differ.off x hx hne]

/-- The scaled words of the two halves, as additive shares, are shares of the scaled sums at the target
and of 0 elsewhere. -/
theorem LeafLevelOk.scaledShares_as (h : LeafLevelOk prg save level t dpf)
    (hhalf : ∀ p, (dpf p).whichhalf = p.bit) (hwidth : WIDTH = 1 ∨ WIDTH = 2) {i : Nat}
    (hi : i < 2 ^ level) {s : Player → Fin WIDTH → RegAS}
    (hs : ∀ p, (dpf p).scaledAs ((dpf p).leafAt prg level i) = some (s p)) (j : Fin WIDTH) :
    s .p0 j + s .p1 j =
      if i = t then
        ((dpf .p0).li.getD ((dpf .p0).maxdepth - level) default).scaledSum j +
          ((dpf .p1).li.getD ((dpf .p1).maxdepth - level) default).scaledSum j
      else 0 := by
  have hword p : s p = fun j => ⟨if Player.bit p then -scaledWord ((dpf p).leafAt prg level i) j
      else scaledWord ((dpf p).leafAt prg level i) j⟩ := by
    have heq := (hs p).symm.trans ((dpf p).scaledAs_eq hwidth _)
    rwa [Option.some.injEq, hhalf] at heq
  rw [hword, hword]
  have hoff := h.scaledWord_off (j := j)
  ext1
  by_cases hit : i = t
  · subst hit
    rw [if_pos rfl, RegAS.ashare_add, RegAS.ashare_add, h.scaledSum, h.scaledSum]
    simp only [Player.bit_p0, Player.bit_p1, Bool.false_eq_true, if_false, if_true,
      ← sub_eq_add_neg]
    exact (sum_sub_sum h.differ.lt hoff).symm
  · rw [if_neg hit, h.differ.off i hi hit]
    exact add_neg_cancel _

/-- The same for XOR shares. -/
theorem LeafLevelOk.scaledShares_xs (h : LeafLevelOk prg save level t dpf) {i : Nat}
    (hi : i < 2 ^ level) (j : Fin WIDTH) :
    RDPF.scaledXs ((dpf .p0).leafAt prg level i) j +
        RDPF.scaledXs ((dpf .p1).leafAt prg level i) j =
      if i = t then
        ((dpf .p0).li.getD ((dpf .p0).maxdepth - level) default).scaledXor j +
          ((dpf .p1).li.getD ((dpf .p1).maxdepth - level) default).scaledXor j
      else 0 := by
  have hoff := h.scaledWord_off (j := j)
  ext1
  by_cases hit : i = t
  · subst hit
    rw [if_pos rfl, RegXS.xshare_add, RegXS.xshare_add, h.scaledXor, h.scaledXor]
    exact (xorSum_xor_xorSum h.differ.lt hoff).symm
  · rw [if_neg hit, RDPF.scaledXs, RDPF.scaledXs, h.differ.off i hi hit]
    exact LawfulXor.xor_self _

/-! ## Distribution -/

/-- A DPF as it is received over the network: expansions are not sent. -/
def RDPF.received (d : RDPF WIDTH) : RDPF WIDTH := { d with li := d.li.map LeafInfo.key }

theorem RDPF.received_li (d : RDPF WIDTH) (k : Nat) :
    d.received.li.getD k default = (d.li.getD k default).key := by
  show (d.li.map LeafInfo.key).getD k (LeafInfo.key default) = _
  exact List.getD_map ..

theorem RDPF.received_isCopy (d : RDPF WIDTH) (level : Nat) :
    (d.received.setDepth level).IsCopy (d.setDepth level) where
  toDPF := rfl
  maxdepth := rfl
  curdepth := rfl
  leafCfbits := rfl
  li k := by
    show (d.received.li.getD k default).key = (d.li.getD k default).key
    rw [d.received_li]
    rfl

variable {U : Type} [SharedIndex U] {ox : OblivIndex U WIDTH} {dpfs : Fin 3 → Player → RDPF WIDTH}

/-- The keys as `mpcio` distributes them: both players keep their halves of the three pairs, P0 sends
its second to the server and P1 its third; all are set to one level. -/
structure Distributed (level : Nat) (dpfs : Fin 3 → Player → RDPF WIDTH) (ox : OblivIndex U WIDTH) :
    Prop where
  triple : ∀ p k, (ox.dt p).dpf k = (dpfs k p).setDepth level
  pair0 : ox.dp 0 = ((dpfs 1 .p0).received).setDepth level
  pair1 : ox.dp 1 = ((dpfs 2 .p1).received).setDepth level

/-- Three pairs of halves with well-made leaf levels for one target. -/
structure KeysOk (prg : PRG WIDTH) (save : Bool) (depth level t : Nat)
    (dpfs : Fin 3 → Player → RDPF WIDTH) : Prop where
  pos : 1 ≤ level
  le : level ≤ depth
  addr : depth ≤ addressMaxBits
  ok : ∀ k, LeafLevelOk prg save level t (dpfs k)
  whichhalf : ∀ k p, (dpfs k p).whichhalf = p.bit
  maxdepth : ∀ k p, (dpfs k p).maxdepth = depth

variable {depth : Nat}

theorem KeysOk.curdepth (h : KeysOk prg save depth level t dpfs) (k : Fin 3) (p : Player) :
    ((dpfs k p).setDepth level).curdepth = level :=
  RDPF.setDepth_curdepth h.pos (by rw [h.maxdepth]; exact h.le)

omit [SharedIndex U] in
/-- The players' triples can be evaluated. -/
theorem KeysOk.ready (h : KeysOk prg save depth level t dpfs) (hd : Distributed level dpfs ox)
    (p : Player) : (ox.dt p).dpf.Ready prg := by
  have hdepth : (ox.dt p).dpf.depth = level := by
    rw [RDPFTuple.depth, hd.triple, h.curdepth]
  refine ⟨by rw [hdepth]; exact h.pos, by rw [hdepth]; exact h.le.trans h.addr, ?_⟩
  intro hexp i hi
  rw [hdepth] at hi
  have hli k : ((ox.dt p).dpf k).li.getD
      (((ox.dt p).dpf k).maxdepth - ((ox.dt p).dpf k).curdepth) default =
        (dpfs k p).li.getD ((dpfs k p).maxdepth - level) default := by
    rw [hd.triple, h.curdepth]
    rfl
  have hsave : save = true := by
    rw [RDPFTuple.hasExpansion, hli, (h.ok 0).expansion p] at hexp
    cases save
    · simp at hexp
    · rfl
  funext k
  rw [RDPFTuple.getExpansion, hli, (h.ok k).expansion p, if_pos hsave,
    List.getD_eq_getElem?_getD, List.getElem?_map, List.getElem?_range hi, RDPFTuple.leafAt, hdepth,
    hd.triple]
  rfl

omit [SharedIndex U] in
/-- The server's pair can be evaluated: it has no expansion. -/
theorem KeysOk.serverReady (h : KeysOk prg save depth level t dpfs) (hd : Distributed level dpfs ox) :
    ox.dp.Ready prg := by
  have hcur : ((dpfs 1 .p0).received.setDepth level).curdepth = level := h.curdepth 1 .p0
  have hdepth : ox.dp.depth = level := by
    rw [RDPFTuple.depth, hd.pair0, hcur]
  refine ⟨by rw [hdepth]; exact h.pos, by rw [hdepth]; exact h.le.trans h.addr, ?_⟩
  intro hexp
  have hnone : ((ox.dp 0).li.getD ((ox.dp 0).maxdepth - (ox.dp 0).curdepth) default).expansion =
      [] := by
    rw [hd.pair0]
    show ((dpfs 1 .p0).received.li.getD _ default).expansion = []
    rw [RDPF.received_li]
    rfl
  rw [RDPFTuple.hasExpansion, hnone] at hexp
  simp at hexp

/-- Distributed keys are valid, given the unit and scaled shares at the cell type. -/
theorem KeysOk.updateValid {T : Type} [Register T] (h : KeysOk prg save depth level t dpfs)
    (hd : Distributed level dpfs ox) (htarget : ox.target level = t)
    (hunit : ∀ k, UnitShares T prg (fun p => (dpfs k p).setDepth level) level t)
    (hscaled : ∀ k, ∀ i < 2 ^ level, ∀ s : Player → Fin WIDTH → T,
      (∀ p, Register.scaled ((dpfs k p).setDepth level) ((dpfs k p).leafAt prg level i) =
        some (s p)) → ∀ j, s .p0 j + s .p1 j = if i = t then
          Register.scaledValue ((dpfs k .p0).li.getD ((dpfs k .p0).maxdepth - level) default) j +
            Register.scaledValue ((dpfs k .p1).li.getD ((dpfs k .p1).maxdepth - level) default) j
        else 0) : ox.UpdateValid T prg level where
  ready := h.ready hd
  serverReady := h.serverReady hd
  depth_eq p k := by rw [hd.triple, h.curdepth]
  copy0 := by
    rw [hd.pair0, hd.triple]
    exact RDPF.received_isCopy _ _
  copy1 := by
    rw [hd.pair1, hd.triple]
    exact RDPF.received_isCopy _ _
  unit k := by
    simp only [hd.triple, htarget]
    exact hunit k
  scaled k x hx s hs j := by
    have hli p : (ox.dt p).liIndex = (dpfs k p).maxdepth - level := by
      rw [RDPFTriple.liIndex, hd.triple, h.curdepth, h.maxdepth]
      show (dpfs 0 p).maxdepth - level = _
      rw [h.maxdepth]
    have hval p : MemRefS.scaledVal (T := T) (ox.dt p) k = Register.scaledValue
        ((dpfs k p).li.getD ((dpfs k p).maxdepth - level) default) := by
      rw [MemRefS.scaledVal, hli, hd.triple]
      rfl
    rw [htarget, hval, hval]
    refine hscaled k x hx s (fun p => ?_) j
    have hsp := hs p
    rw [hd.triple] at hsp
    exact hsp

theorem KeysOk.updateValid_as (h : KeysOk prg save depth level t dpfs)
    (hd : Distributed level dpfs ox) (htarget : ox.target level = t)
    (hwidth : WIDTH = 1 ∨ WIDTH = 2) : ox.UpdateValid RegAS prg level := by
  refine h.updateValid hd htarget (fun k => (h.ok k).unitShares_as (h.whichhalf k) h.pos fun p => ?_)
    fun k i hi s hs j => (h.ok k).scaledShares_as (h.whichhalf k) hwidth hi hs j
  rw [h.maxdepth]
  exact h.le

theorem KeysOk.updateValid_xs (h : KeysOk prg save depth level t dpfs)
    (hd : Distributed level dpfs ox) (htarget : ox.target level = t) :
    ox.UpdateValid RegXS prg level := by
  refine h.updateValid hd htarget (fun k => (h.ok k).unitShares_xs) fun k i hi s hs j => ?_
  have hword p : RDPF.scaledXs ((dpfs k p).leafAt prg level i) = s p := Option.some.inj (hs p)
  rw [← hword, ← hword]
  exact (h.ok k).scaledShares_xs hi j

/-! ## The targets -/

/-- The XOR shares of the target, shifted to a level, are shares of its prefix. -/
theorem KeysOk.target_xs {ox : OblivIndex RegXS WIDTH} {target : Player → RegXS}
    (h : KeysOk prg save depth level t dpfs) (hd : Distributed level dpfs ox)
    (hxs : ∀ p, (ox.dt p).xsTarget = target p) :
    ox.target level = targetAt (reconstructTarget target) depth level := by
  have hli p : (ox.dt p).liIndex = depth - level := by
    rw [RDPFTriple.liIndex, hd.triple, h.curdepth]
    show (dpfs 0 p).maxdepth - level = _
    rw [h.maxdepth]
  have hle : level ≤ 64 := h.le.trans (h.addr.trans (by decide))
  have hpow : 2 ^ depth = 2 ^ (depth - level) * 2 ^ level := by
    rw [← Nat.pow_add, Nat.sub_add_cancel h.le]
  show (((ox.dt .p0).xsTarget.xshare >>> (ox.dt .p0).liIndex ^^^
    (ox.dt .p1).xsTarget.xshare >>> (ox.dt .p1).liIndex) &&& maskBits level).toNat = _
  rw [toNat_and_maskBits hle, hli, hli, hxs, hxs, ← BitVec.ushiftRight_xor_distrib,
    BitVec.toNat_setWidth, BitVec.toNat_ushiftRight, targetAt, reconstructTarget,
    Nat.shiftRight_eq_div_pow, Nat.shiftRight_eq_div_pow, hpow, Nat.mod_mul_right_div_self]

/-- Additive shares of the target, of a DPF that is used at its full depth. -/
theorem target_as {ox : OblivIndex RegAS WIDTH} {target : Player → RegXS}
    (has : RegAS.combine (ox.dt .p0).asTarget (ox.dt .p1).asTarget depth =
      RegXS.combine (target .p0) (target .p1) depth) (hdepth : depth ≤ 64) :
    ox.target depth = targetAt (reconstructTarget target) depth depth := by
  show (RegAS.combine (ox.dt .p0).asTarget (ox.dt .p1).asTarget depth).toNat = _
  rw [has, RegXS.combine, toNat_and_maskBits hdepth, BitVec.toNat_setWidth, targetAt,
    reconstructTarget, Nat.sub_self, Nat.shiftRight_zero]

instance : Inhabited (LevelTriples WIDTH) :=
  ⟨requestNodeselecttriples 0 0 0, fun _ => requestNodeselecttriples 0 0 0⟩

/-- The three RDPFs that the parties make for a triple, and their halves' levels. -/
theorem exists_keysOk (prg : PRG WIDTH) (target : Player → RegXS) {depth level : Nat}
    (incremental save : Bool) (hpos : 1 ≤ level) (hle : level ≤ depth) (hdepth : depth ≤ RDPF.maxKeyDepth)
    (hlevel : incremental = true ∨ level = depth) (nthreads : Player → ℕ+)
    (seeds : Fin 3 → Player → DPFnode) (triples : Fin 3 → Nat → LevelTriples WIDTH) :
    ∃ dpfs : Fin 3 → Player → RDPF WIDTH,
      (∀ k, RDPF.create prg nthreads (seeds k) target depth incremental save (triples k) =
        some (dpfs k)) ∧
      KeysOk prg save depth level (targetAt (reconstructTarget target) depth level) dpfs := by
  have hcreate k := create_spec prg nthreads (seeds k) target hdepth incremental save (triples k)
  choose dpfs hrun hshape hok using hcreate
  exact ⟨dpfs, hrun, hpos, hle, hdepth.trans (by decide), fun k => hok k level hpos hle hlevel,
    fun k p => (hshape k p).whichhalf, fun k p => (hshape k p).maxdepth⟩

/-- An index with the keys that the parties make for it. -/
def OblivIndex.ofKeys {U : Type} (level : Nat) (target : Player → RegXS) (asTarget : Player → RegAS)
    (dpfs : Fin 3 → Player → RDPF WIDTH) (nextWindex : Nat) (idx : Player → U) :
    OblivIndex U WIDTH where
  dt p := ⟨asTarget p, target p, fun k => (dpfs k p).setDepth level⟩
  dp := ![((dpfs 1 .p0).received).setDepth level, ((dpfs 2 .p1).received).setDepth level]
  nextWindex := nextWindex
  idx := idx

theorem OblivIndex.ofKeys_distributed {U : Type} (level : Nat) (target : Player → RegXS)
    (asTarget : Player → RegAS) (dpfs : Fin 3 → Player → RDPF WIDTH) (nextWindex : Nat)
    (idx : Player → U) :
    Distributed level dpfs (ofKeys level target asTarget dpfs nextWindex idx) :=
  ⟨fun _ _ => rfl, rfl, rfl⟩

/-- Valid keys for an additively shared index exist at every depth up to 30 and for every PRG. -/
theorem exists_valid_as (prg : PRG WIDTH) (hwidth : WIDTH = 1 ∨ WIDTH = 2) {depth : Nat}
    (hpos : 1 ≤ depth) (hdepth : depth ≤ RDPF.maxKeyDepth) (idx : Player → RegAS) :
    ∃ ox : OblivIndex RegAS WIDTH, ox.idx = idx ∧ ox.nextWindex = 0 ∧
      ox.UpdateValid RegAS prg depth ∧ ox.UpdateValid RegXS prg depth := by
  let target : Player → RegXS := 0
  obtain ⟨dpfs, -, hkeys⟩ := exists_keysOk prg target false false hpos le_rfl hdepth (Or.inr rfl)
    (fun _ => 1) (fun _ _ => 0) default
  have hdist := OblivIndex.ofKeys_distributed depth target 0 dpfs 0 idx
  have htarget : (OblivIndex.ofKeys depth target 0 dpfs 0 idx).target depth =
      targetAt (reconstructTarget target) depth depth := by
    refine target_as ?_ (hdepth.trans (by decide))
    show (0 + 0 : Value) &&& _ = (0 ^^^ 0 : Value) &&& _
    simp
  exact ⟨_, rfl, rfl, hkeys.updateValid_as hdist htarget hwidth, hkeys.updateValid_xs hdist htarget⟩

/-- The same for an XOR-shared index. -/
theorem exists_valid_xs (prg : PRG WIDTH) (hwidth : WIDTH = 1 ∨ WIDTH = 2) {depth : Nat}
    (hpos : 1 ≤ depth) (hdepth : depth ≤ RDPF.maxKeyDepth) (idx : Player → RegXS) :
    ∃ ox : OblivIndex RegXS WIDTH, ox.idx = idx ∧ ox.nextWindex = 0 ∧
      ox.UpdateValid RegAS prg depth ∧ ox.UpdateValid RegXS prg depth := by
  let target : Player → RegXS := 0
  obtain ⟨dpfs, -, hkeys⟩ := exists_keysOk prg target false false hpos le_rfl hdepth (Or.inr rfl)
    (fun _ => 1) (fun _ _ => 0) default
  have hdist := OblivIndex.ofKeys_distributed depth target 0 dpfs 0 idx
  have htarget := hkeys.target_xs hdist fun _ => rfl
  exact ⟨_, rfl, rfl, hkeys.updateValid_as hdist htarget hwidth, hkeys.updateValid_xs hdist htarget⟩

end Prac
