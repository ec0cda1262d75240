import Prac.DuoramRead
import Prac.MpcShares

/-!
# The keys of an access (`RDPFTriple`, `MPCTIO::rdpftriple`, `OblivIndex`)

* `RDPFTriple.create` — P0 and P1 make three RDPFs for one random target, and additive shares of it.
* `MPCTIO.rdpftriple` — the triples that they keep, and the pair that they send to the server.
* `OblivIndex.create`, `IncrIndex.create`, `IncrIndex.incr` — an index that owns such keys, whole or to be
  given bit by bit.
* `OblivIndex.exists_create`, `IncrIndex.Ok` — the keys are valid, whatever is drawn: no access has to
  assume it.

What is drawn at random is an argument.
-/

namespace Prac

variable {WIDTH : Nat}

/-- The threads that each party evaluates with, and the PRGs. -/
structure MPCTIO (WIDTH : Nat) where
  prg : PRG WIDTH
  nthreads : Player → ℕ+
  serverThreads : ℕ+

/-- What is drawn for a triple: shares of the target, seeds, select triples and half triples. -/
structure TripleCoins (WIDTH : Nat) where
  xsTarget : Player → Value
  seeds : Fin 3 → Player → DPFnode
  triples : Fin 3 → Nat → LevelTriples WIDTH
  halves : Nat → HalfTriple

/-- `xs_target.randomize(depth)`. -/
def TripleCoins.target (coins : TripleCoins WIDTH) (depth : Nat) (p : Player) : RegXS :=
  ⟨coins.xsTarget p &&& maskBits depth⟩

/-- `RDPFTriple::RDPFTriple`. -/
def RDPFTriple.create (tio : MPCTIO WIDTH) (coins : TripleCoins WIDTH) (depth : Nat)
    (incremental saveExpansion : Bool) : Option (Player → RDPFTriple WIDTH) := do
  let xs_target := coins.target depth
  let dpf k := RDPF.create tio.prg tio.nthreads (coins.seeds k) xs_target depth incremental saveExpansion
    (coins.triples k)
  let dpf0 ← dpf 0
  let dpf1 ← dpf 1
  let dpf2 ← dpf 2
  let as_target := mpcXsToAs depth coins.halves xs_target
  some fun p => ⟨as_target p, xs_target p, ![dpf0 p, dpf1 p, dpf2 p]⟩

/-- `MPCTIO::rdpftriple` at P0 and P1 with `MPCTIO::rdpfpair` at the server, where nothing is
precomputed: P0 sends its second RDPF and P1 its third. -/
def MPCTIO.rdpftriple (tio : MPCTIO WIDTH) (coins : TripleCoins WIDTH) (depth : Nat)
    (incremental keepExpansion : Bool) : Option ((Player → RDPFTriple WIDTH) × RDPFPair WIDTH) := do
  let val ← RDPFTriple.create tio coins depth incremental keepExpansion
  some (val, ![((val .p0).dpf 1).received, ((val .p1).dpf 2).received])

/-- The constructor of a non-incremental `OblivIndex`. -/
def OblivIndex.create {U : Type} (tio : MPCTIO WIDTH) (coins : TripleCoins WIDTH) (idx : Player → U)
    (depth : Nat) : Option (OblivIndex U WIDTH) := do
  let (dt, dp) ← tio.rdpftriple coins depth false true
  some { dt := dt, dp := dp, nextWindex := 0, idx := idx }

/-- An incremental `OblivIndex`: the index with the number of bits that it has so far. -/
structure IncrIndex (WIDTH : Nat) where
  ox : OblivIndex RegXS WIDTH
  curdepth : Nat

/-- `RDPFTriple::depth(newdepth)`. -/
def RDPFTriple.setDepth (dt : RDPFTriple WIDTH) (newdepth : Nat) : RDPFTriple WIDTH :=
  { dt with dpf := fun k => (dt.dpf k).setDepth newdepth }

/-- `RDPFPair::depth(newdepth)`. -/
def RDPFTuple.setDepth {n : Nat} (dp : RDPFTuple n WIDTH) (newdepth : Nat) : RDPFTuple n WIDTH :=
  fun k => (dp k).setDepth newdepth

namespace IncrIndex

/-- The constructor of an incremental `OblivIndex`. -/
def create (tio : MPCTIO WIDTH) (coins : TripleCoins WIDTH) (depth : Nat) : Option (IncrIndex WIDTH) := do
  let (dt, dp) ← tio.rdpftriple coins depth true true
  some ⟨{ dt := dt, dp := dp, nextWindex := 0, idx := fun _ => 0 }, 0⟩

/-- `OblivIndex::incr`. -/
def incr (oidx : IncrIndex WIDTH) (bit : Player → RegBS) : IncrIndex WIDTH :=
  let curdepth := oidx.curdepth + 1
  { ox :=
      { dt := fun p => (oidx.ox.dt p).setDepth curdepth
        dp := oidx.ox.dp.setDepth curdepth
        nextWindex := oidx.ox.nextWindex
        idx := fun p => ⟨((oidx.ox.idx p).xshare <<< 1) ||| BitVec.ofNat 64 (bit p).bshare.toNat⟩ }
    curdepth := curdepth }

end IncrIndex

/-! ## The keys are valid -/

/-- The three RDPFs of the players' triples, by RDPF and player. -/
def RDPFTriple.dpfs (dt : Player → RDPFTriple WIDTH) (k : Fin 3) (p : Player) : RDPF WIDTH := (dt p).dpf k

theorem RDPF.setDepth_self {dpf : RDPF WIDTH} {depth : Nat} (hmax : dpf.maxdepth = depth)
    (hcur : dpf.curdepth = depth) (level : Nat) (hlevel : level = 0 ∨ level = depth) :
    dpf.setDepth level = dpf := by
  have hnot : ¬(0 < level ∧ level < dpf.maxdepth) := by omega
  obtain ⟨key, maxdepth, curdepth, li, leafCfbits⟩ := dpf
  obtain rfl : maxdepth = curdepth := hmax.trans hcur.symm
  unfold setDepth
  rw [if_neg hnot]

/-- What the constructor of a triple makes: well-made leaf levels of three RDPFs at their full depth, and
shares of their target of both kinds. -/
structure RDPFTriple.Created (prg : PRG WIDTH) (save : Bool) (coins : TripleCoins WIDTH) (depth : Nat)
    (incremental : Bool) (dt : Player → RDPFTriple WIDTH) : Prop where
  keys : ∀ level, 1 ≤ level → level ≤ depth → (incremental = true ∨ level = depth) →
    KeysOk prg save depth level (targetAt (reconstructTarget (coins.target depth)) depth level)
      (RDPFTriple.dpfs dt)
  curdepth : ∀ p k, ((dt p).dpf k).curdepth = depth
  maxdepth : ∀ p k, ((dt p).dpf k).maxdepth = depth
  xsTarget : ∀ p, (dt p).xsTarget = coins.target depth p
  asTarget : ∀ p, (dt p).asTarget = mpcXsToAs depth coins.halves (coins.target depth) p

theorem RDPFTriple.exists_create (tio : MPCTIO WIDTH) (coins : TripleCoins WIDTH) {depth : Nat}
    (hle : depth ≤ RDPF.maxKeyDepth) (incremental save : Bool) :
    ∃ dt, RDPFTriple.create tio coins depth incremental save = some dt ∧
      RDPFTriple.Created tio.prg save coins depth incremental dt := by
  have hcreate k := create_spec tio.prg tio.nthreads (coins.seeds k) (coins.target depth) hle incremental
    save (coins.triples k)
  choose dpf hrun hshape hok using hcreate
  let dt (p : Player) : RDPFTriple WIDTH :=
    ⟨mpcXsToAs depth coins.halves (coins.target depth) p, coins.target depth p,
      ![dpf 0 p, dpf 1 p, dpf 2 p]⟩
  have hdpf p k : (dt p).dpf k = dpf k p := by
    refine Fin.cases rfl (fun k => Fin.cases rfl (fun k => Fin.cases rfl (fun k => k.elim0) k) k) k
  have hdpfs k : RDPFTriple.dpfs dt k = dpf k := funext fun p => hdpf p k
  refine ⟨dt, ?_, ?_, fun p k => ?_, fun p k => ?_, fun _ => rfl, fun _ => rfl⟩
  · simp only [RDPFTriple.create, hrun, Option.bind_eq_bind, Option.bind_some]
    rfl
  · intro level hpos hlevel hleaf
    refine ⟨hpos, hlevel, hle.trans (by decide), fun k => ?_, fun k p => ?_, fun k p => ?_⟩
    · rw [hdpfs]
      exact hok k level hpos hlevel hleaf
    · rw [hdpfs]
      exact (hshape k p).whichhalf
    · rw [hdpfs]
      exact (hshape k p).maxdepth
  · rw [hdpf]
    exact (hshape k p).curdepth
  · rw [hdpf]
    exact (hshape k p).maxdepth

/-- The same with the server's pair. -/
theorem MPCTIO.exists_rdpftriple (tio : MPCTIO WIDTH) (coins : TripleCoins WIDTH) {depth : Nat}
    (hle : depth ≤ RDPF.maxKeyDepth) (incremental save : Bool) :
    ∃ dt, tio.rdpftriple coins depth incremental save =
        some (dt, ![((dt .p0).dpf 1).received, ((dt .p1).dpf 2).received]) ∧
      RDPFTriple.Created tio.prg save coins depth incremental dt := by
  obtain ⟨dt, hrun, hcreated⟩ := RDPFTriple.exists_create tio coins hle incremental save
  refine ⟨dt, ?_, hcreated⟩
  rw [rdpftriple, hrun]
  rfl

/-- The cell types with valid updates: additive words at the widths that `scaled_as` stays inside of, XOR
words at every width. -/
class Updatable (T : Type) [Register T] (WIDTH : Nat) : Prop where
  updateValid : ∀ {U : Type} [SharedIndex U] {prg : PRG WIDTH} {save : Bool} {depth level t : Nat}
    {dpfs : Fin 3 → Player → RDPF WIDTH} {ox : OblivIndex U WIDTH}, KeysOk prg save depth level t dpfs →
    Distributed level dpfs ox → ox.target level = t → ox.UpdateValid T prg level

instance : Updatable RegAS 1 := ⟨fun h hd ht => h.updateValid_as hd ht (Or.inl rfl)⟩

instance : Updatable RegAS 2 := ⟨fun h hd ht => h.updateValid_as hd ht (Or.inr rfl)⟩

instance : Updatable RegXS WIDTH := ⟨fun h hd ht => h.updateValid_xs hd ht⟩

/-- The keys that an index owns at its current depth. -/
theorem RDPFTriple.Created.distributed {U : Type} {prg : PRG WIDTH} {save : Bool}
    {coins : TripleCoins WIDTH} {depth : Nat} {incremental : Bool} {dt : Player → RDPFTriple WIDTH}
    (h : Created prg save coins depth incremental dt) (idx : Player → U) :
    Distributed depth (RDPFTriple.dpfs dt)
      { dt := dt, dp := ![((dt .p0).dpf 1).received, ((dt .p1).dpf 2).received], nextWindex := 0,
        idx := idx : OblivIndex U WIDTH } := by
  have hself p k : ((dt p).dpf k).setDepth depth = (dt p).dpf k :=
    RDPF.setDepth_self (h.maxdepth p k) (h.curdepth p k) depth (Or.inr rfl)
  have hreceived p k : ((dt p).dpf k).received.setDepth depth = ((dt p).dpf k).received :=
    have hmax : ((dt p).dpf k).received.maxdepth = depth := h.maxdepth p k
    RDPF.setDepth_self hmax (h.curdepth p k) depth (Or.inr rfl)
  exact ⟨fun p k => (hself p k).symm, (hreceived .p0 1).symm, (hreceived .p1 2).symm⟩

section Create

variable {T : Type} [Register T] [Updatable T WIDTH]

/-- The index types whose shares of a target are made with the triple. -/
class Targeted (U : Type) [SharedIndex U] : Prop where
  target_eq : ∀ {WIDTH : Nat} {prg : PRG WIDTH} {save : Bool} {coins : TripleCoins WIDTH} {depth : Nat}
    {incremental : Bool} {dt : Player → RDPFTriple WIDTH} {ox : OblivIndex U WIDTH}, 1 ≤ depth →
    depth ≤ RDPF.maxKeyDepth → RDPFTriple.Created prg save coins depth incremental dt → ox.dt = dt →
    ox.target depth = targetAt (reconstructTarget (coins.target depth)) depth depth

instance : Targeted RegAS where
  target_eq := by
    intro WIDTH prg save coins depth incremental dt ox hpos hle hcreated hdt
    have hbits : depth ≤ 64 := hle.trans (by decide)
    apply target_as _ hbits
    rw [hdt, hcreated.asTarget, hcreated.asTarget]
    exact mpcXsToAs_correct hpos hbits coins.halves (coins.target depth)

instance : Targeted RegXS where
  target_eq := by
    intro WIDTH prg save coins depth incremental dt ox hpos hle hcreated hdt
    have hindex : (ox.dt .p0).liIndex = 0 ∧ (ox.dt .p1).liIndex = 0 := by
      simp only [hdt, RDPFTriple.liIndex, hcreated.maxdepth, hcreated.curdepth, Nat.sub_self, and_self]
    have hbits : depth ≤ 64 := hle.trans (by decide)
    show (((ox.dt .p0).xsTarget.xshare >>> (ox.dt .p0).liIndex ^^^
      (ox.dt .p1).xsTarget.xshare >>> (ox.dt .p1).liIndex) &&& maskBits depth).toNat = _
    rw [hindex.1, hindex.2, BitVec.ushiftRight_zero, BitVec.ushiftRight_zero, hdt, hcreated.xsTarget,
      hcreated.xsTarget, toNat_and_maskBits hbits, BitVec.toNat_setWidth, targetAt, reconstructTarget,
      Nat.sub_self, Nat.shiftRight_zero]

/-- The keys of a new index, whatever the parties draw. -/
theorem OblivIndex.exists_keys {U : Type} [SharedIndex U] [Targeted U] (tio : MPCTIO WIDTH)
    (coins : TripleCoins WIDTH) (idx : Player → U) {depth : Nat} (hpos : 1 ≤ depth)
    (hle : depth ≤ RDPF.maxKeyDepth) :
    ∃ ox dpfs, OblivIndex.create tio coins idx depth = some ox ∧ ox.idx = idx ∧ ox.nextWindex = 0 ∧
      KeysOk tio.prg true depth depth (ox.target depth) dpfs ∧ Distributed depth dpfs ox := by
  obtain ⟨dt, hrun, hcreated⟩ := tio.exists_rdpftriple coins hle false true
  have hdist := hcreated.distributed idx
  let dp : RDPFPair WIDTH := ![((dt .p0).dpf 1).received, ((dt .p1).dpf 2).received]
  have htarget : (⟨dt, dp, 0, idx⟩ : OblivIndex U WIDTH).target depth =
      targetAt (reconstructTarget (coins.target depth)) depth depth :=
    Targeted.target_eq hpos hle hcreated rfl
  have hkeys := hcreated.keys depth hpos le_rfl (Or.inr rfl)
  rw [← htarget] at hkeys
  refine ⟨⟨dt, dp, 0, idx⟩, _, ?_, rfl, rfl, hkeys, hdist⟩
  rw [OblivIndex.create, hrun]
  rfl

variable (T) in
/-- **A new index has valid keys.** -/
theorem OblivIndex.exists_create {U : Type} [SharedIndex U] [Targeted U] (tio : MPCTIO WIDTH)
    (coins : TripleCoins WIDTH) (idx : Player → U) {depth : Nat} (hpos : 1 ≤ depth)
    (hle : depth ≤ RDPF.maxKeyDepth) :
    ∃ ox, OblivIndex.create tio coins idx depth = some ox ∧ ox.idx = idx ∧ ox.nextWindex = 0 ∧
      ox.UpdateValid T tio.prg depth := by
  obtain ⟨ox, dpfs, hcreate, hidx, hwindex, hkeys, hdist⟩ := exists_keys tio coins idx hpos hle
  exact ⟨ox, hcreate, hidx, hwindex, Updatable.updateValid hkeys hdist rfl⟩

end Create

/-! ## Incremental indices -/

namespace IncrIndex

/-- The keys of an incremental index: the ones it was made with, set to its current depth. -/
structure Ok (prg : PRG WIDTH) (maxdepth : Nat) (oidx : IncrIndex WIDTH) : Prop where
  keys : ∃ save coins dt, RDPFTriple.Created prg save coins maxdepth true dt ∧
    oidx.ox.dt = (fun p => (dt p).setDepth oidx.curdepth) ∧
    oidx.ox.dp = RDPFTuple.setDepth ![((dt .p0).dpf 1).received, ((dt .p1).dpf 2).received] oidx.curdepth
  nextWindex : oidx.ox.nextWindex = 0

/-- The index that the players share. -/
def idx (oidx : IncrIndex WIDTH) : Value := (oidx.ox.idx .p0).xshare ^^^ (oidx.ox.idx .p1).xshare

theorem exists_create (tio : MPCTIO WIDTH) (coins : TripleCoins WIDTH) {depth : Nat}
    (hle : depth ≤ RDPF.maxKeyDepth) :
    ∃ oidx, create tio coins depth = some oidx ∧ oidx.Ok tio.prg depth ∧ oidx.idx = 0 ∧
      oidx.curdepth = 0 := by
  obtain ⟨dt, hrun, hcreated⟩ := tio.exists_rdpftriple coins hle true true
  have hself p k : ((dt p).dpf k).setDepth 0 = (dt p).dpf k :=
    RDPF.setDepth_self (hcreated.maxdepth p k) (hcreated.curdepth p k) 0 (Or.inl rfl)
  have hreceived p k : ((dt p).dpf k).received.setDepth 0 = ((dt p).dpf k).received :=
    have hmax : ((dt p).dpf k).received.maxdepth = depth := hcreated.maxdepth p k
    RDPF.setDepth_self hmax (hcreated.curdepth p k) 0 (Or.inl rfl)
  let dp : RDPFPair WIDTH := ![((dt .p0).dpf 1).received, ((dt .p1).dpf 2).received]
  refine ⟨⟨⟨dt, dp, 0, fun _ => 0⟩, 0⟩, ?_, ⟨⟨true, coins, dt, hcreated, ?_, ?_⟩, rfl⟩,
    LawfulXor.xor_self (0 : Value), rfl⟩
  · rw [create, hrun]
    rfl
  · funext p
    simp only [RDPFTriple.setDepth, hself]
  · funext k
    refine Fin.cases ?_ (fun k => ?_) k
    · exact (hreceived .p0 1).symm
    · obtain rfl : k = 0 := Subsingleton.elim _ _
      exact (hreceived .p1 2).symm

theorem Ok.incr {prg : PRG WIDTH} {maxdepth : Nat} {oidx : IncrIndex WIDTH} (h : oidx.Ok prg maxdepth)
    (bit : Player → RegBS) : (oidx.incr bit).Ok prg maxdepth := by
  obtain ⟨save, coins, dt, hcreated, hdt, hdp⟩ := h.keys
  refine ⟨⟨save, coins, dt, hcreated, ?_, ?_⟩, h.nextWindex⟩
  · simp only [IncrIndex.incr, hdt]
    rfl
  · simp only [IncrIndex.incr, hdp]
    rfl

theorem incr_curdepth (oidx : IncrIndex WIDTH) (bit : Player → RegBS) :
    (oidx.incr bit).curdepth = oidx.curdepth + 1 := rfl

/-- The new bit becomes the lowest one of the index. -/
theorem incr_idx (oidx : IncrIndex WIDTH) (bit : Player → RegBS) :
    (oidx.incr bit).idx =
      (oidx.idx <<< 1) ||| BitVec.ofNat 64 ((bit .p0).bshare ^^ (bit .p1).bshare).toNat := by
  have hbit (v : Value) (b : Bool) : (v <<< 1) ||| BitVec.ofNat 64 b.toNat =
      (v <<< 1) ^^^ BitVec.ofNat 64 b.toNat := by
    ext i hi
    cases b <;> cases i <;> simp [BitVec.getElem_one]
  have hxor (a b : Bool) : BitVec.ofNat 64 a.toNat ^^^ BitVec.ofNat 64 b.toNat =
      BitVec.ofNat 64 (a ^^ b).toNat := by
    cases a <;> cases b <;> decide
  show ((oidx.ox.idx .p0).xshare <<< 1 ||| BitVec.ofNat 64 (bit .p0).bshare.toNat) ^^^
    ((oidx.ox.idx .p1).xshare <<< 1 ||| BitVec.ofNat 64 (bit .p1).bshare.toNat) = _
  rw [hbit, hbit, hbit, Xor.xor_xor_xor_comm, hxor, idx, BitVec.shiftLeft_xor_distrib]

/-- At every depth from 1 to its maximum the keys of an incremental index are valid. -/
theorem Ok.updateValid {T : Type} [Register T] [Updatable T WIDTH] {prg : PRG WIDTH} {maxdepth : Nat}
    {oidx : IncrIndex WIDTH} (h : oidx.Ok prg maxdepth) (hpos : 1 ≤ oidx.curdepth)
    (hle : oidx.curdepth ≤ maxdepth) : oidx.ox.UpdateValid T prg oidx.curdepth := by
  obtain ⟨save, coins, dt, hcreated, hdt, hdp⟩ := h.keys
  have hkeys := hcreated.keys oidx.curdepth hpos hle (Or.inl rfl)
  have hdist : Distributed oidx.curdepth (RDPFTriple.dpfs dt) oidx.ox := by
    refine ⟨fun p k => ?_, ?_, ?_⟩
    · rw [hdt]
      rfl
    · rw [hdp]
      rfl
    · rw [hdp]
      rfl
  apply Updatable.updateValid hkeys hdist
  apply hkeys.target_xs hdist
  intro p
  rw [hdt]
  exact hcreated.xsTarget p

end IncrIndex

end Prac
