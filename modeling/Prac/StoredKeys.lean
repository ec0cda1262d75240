import Prac.DuoramArray
import Prac.PrecompRuns

/-!
# Oblivious accesses with precomputed keys (`mpcio.tcc`, `duoram.hpp`)

* `KeyStores` — the storages of a thread for the RDPFs of memory accesses; `KeyStores.rdpftriple` takes the
  next keys from those of all parties.
* `OnlineState.access` — an access in the online phase; `keysUsed` — how many keys of a depth accesses take.
* `Dealt.Valid.updateValid` — stored keys are valid for an access.
* `online_iff_stock` — accesses succeed if and only if preprocessing has made keys for all of them, and
  then they do to the shares what they do to an array in the clear.
-/

namespace Prac

open Bytes Simulation

variable {WIDTH : Nat}

/-! ## Stored keys are valid -/

/-- The server's copy of the keys may have other expansions than the players'. -/
theorem OblivIndex.UpdateValid.withPair {T U : Type} [Register T] [SharedIndex U] {prg : PRG WIDTH} {depth : Nat}
    {ox : OblivIndex U WIDTH} (h : ox.UpdateValid T prg depth) {dp : RDPFPair WIDTH} (hready : dp.Ready prg)
    (copy0 : (dp 0).IsCopy (ox.dp 0)) (copy1 : (dp 1).IsCopy (ox.dp 1)) :
    ({ ox with dp := dp } : OblivIndex U WIDTH).UpdateValid T prg depth where
  ready := h.ready
  serverReady := hready
  depth_eq := h.depth_eq
  copy0 := copy0.trans h.copy0
  copy1 := copy1.trans h.copy1
  unit := h.unit
  scaled := h.scaled

theorem RDPF.IsCopy.symm {d d' : RDPF WIDTH} (h : d.IsCopy d') : d'.IsCopy d :=
  ⟨h.toDPF.symm, h.maxdepth.symm, h.curdepth.symm, h.leafCfbits.symm, fun k => (h.li k).symm⟩

/-- The leaves that the server has stored are those of its RDPFs. -/
theorem RDPF.StoredCopy.getExpansion {prg : PRG WIDTH} {expanded : Bool} {dpf dpf' : RDPF WIDTH}
    (h : StoredCopy prg expanded dpf dpf') (hmade : dpf.Made) :
    dpf'.li.getD (dpf'.maxdepth - dpf'.curdepth) default = dpf'.li.getD 0 default ∧
      (dpf'.li.getD 0 default).expansion = if expanded then dpf'.levelLeaves prg 0 else [] := by
  constructor
  · rw [h.copy.maxdepth, h.copy.curdepth, hmade.curdepth, Nat.sub_self]
  · rw [h.copy.levelLeaves prg 0]
    exact h.expansion 0 hmade.li_pos

theorem RDPF.StoredCopy.pair_ready {prg : PRG WIDTH} {expanded : Bool} {dpf0 dpf1 : RDPF WIDTH} {dp : RDPFPair WIDTH}
    {depth : Nat} (h0 : StoredCopy prg expanded dpf0 (dp 0)) (h1 : StoredCopy prg expanded dpf1 (dp 1))
    (made0 : dpf0.Made) (made1 : dpf1.Made) (max0 : dpf0.maxdepth = depth) (max1 : dpf1.maxdepth = depth) :
    dp.Ready prg := by
  have hmax0 : (dp 0).maxdepth = depth := h0.copy.maxdepth.trans max0
  have hmax1 : (dp 1).maxdepth = depth := h1.copy.maxdepth.trans max1
  have hdepth : dp.depth = depth := by
    rw [RDPFTuple.depth, h0.copy.curdepth, made0.curdepth, max0]
  have hpos := made0.pos
  have hle := made0.le
  rw [max0] at hpos hle
  refine ⟨by rw [hdepth]; exact hpos, by rw [hdepth]; exact hle.trans (by decide), fun hexp i hi => ?_⟩
  obtain ⟨hindex0, hexp0⟩ := h0.getExpansion made0
  obtain ⟨hindex1, hexp1⟩ := h1.getExpansion made1
  have htrue : expanded = true := by
    rw [RDPFTuple.hasExpansion, hindex0, hexp0] at hexp
    cases expanded with
    | false => cases hexp
    | true => rfl
  rw [htrue, if_pos rfl] at hexp0 hexp1
  have hleaf (dpf : RDPF WIDTH) (hmax : dpf.maxdepth = depth) :
      (dpf.levelLeaves prg 0).getD i 0 = dpf.leafAt prg dp.depth i := by
    rw [levelLeaves, hmax, Nat.sub_zero, List.getD_eq_getElem?_getD, List.getElem?_map, List.getElem?_range
      (by rwa [← hdepth]), hdepth]
    rfl
  funext k
  refine Fin.cases ?_ (fun k => ?_) k
  · rw [RDPFTuple.getExpansion, hindex0, hexp0]
    exact hleaf _ hmax0
  · obtain rfl : k = 0 := Subsingleton.elim _ _
    show ((dp 1).li.getD ((dp 1).maxdepth - (dp 1).curdepth) default).expansion.getD i 0 = _
    rw [hindex1, hexp1]
    exact hleaf _ hmax1

/-- **Stored keys are valid** for an access at the depth that they were made for. -/
theorem Dealt.Valid.updateValid {T U : Type} [Register T] [SharedIndex U] [Targeted U] [Updatable T WIDTH]
    {prg : (WIDTH : Nat) → PRG WIDTH} {depth : Nat} {dt : Player → RDPFTriple WIDTH} {dp : RDPFPair WIDTH}
    (h : (Dealt.rdpf WIDTH dt dp).Valid prg (.rdpf depth false WIDTH)) (idx : Player → U) :
    (⟨dt, dp, 0, idx⟩ : OblivIndex U WIDTH).UpdateValid T (prg WIDTH) depth := by
  cases h with
  | rdpf created made copy0 copy1 =>
      have hpos := ((made .p0).dpf 0).pos
      have hle := ((made .p0).dpf 0).le
      rw [created.maxdepth] at hpos hle
      have hkeys := created.keys depth hpos le_rfl (Or.inr rfl)
      have hdist := created.distributed idx
      let received : RDPFPair WIDTH := ![((dt .p0).dpf 1).received, ((dt .p1).dpf 2).received]
      have htarget : (⟨dt, received, 0, idx⟩ : OblivIndex U WIDTH).target depth = _ :=
        Targeted.target_eq hpos (hle.trans (by decide)) created rfl
      have hvalid : (⟨dt, received, 0, idx⟩ : OblivIndex U WIDTH).UpdateValid T (prg WIDTH) depth :=
        Updatable.updateValid hkeys hdist htarget
      refine hvalid.withPair (RDPF.StoredCopy.pair_ready copy0 copy1 ((made .p0).dpf 1) ((made .p1).dpf 2)
        (created.maxdepth .p0 1) (created.maxdepth .p1 2)) ?_ ?_
      · exact copy0.copy.trans (RDPF.isCopy_received _).symm
      · exact copy1.copy.trans (RDPF.isCopy_received _).symm

/-! ## The storages -/

/-- A thread's storages of RDPFs for memory accesses, by depth: triples at P0 and P1, pairs at the server. -/
abbrev KeyStores := Role → Nat → PreCompStorage

namespace KeyStores

/-- `rdpfstorage_init`, for RDPFs of width 1 that are not incremental. -/
def init (files : Files) (thread : Nat) : KeyStores := fun role depth =>
  PreCompStorage.init files (PreCompStorage.name (rdpfStem false 1) role.player thread depth)

/-- `MPCTIO::rdpftriple` at P0 and P1 and `MPCTIO::rdpfpair` at the server in the online phase. -/
def rdpftriple (stores : KeyStores) (depth : Nat) :
    Option (((Player → RDPFTriple 1) × RDPFPair 1) × KeyStores) := do
  let (val0, storage0) ← (stores (.comp .p0) depth).get RDPFTriple.read
  let (val1, storage1) ← (stores (.comp .p1) depth).get RDPFTriple.read
  let (val2, storage2) ← (stores .server depth).get (readArray RDPF.read 2)
  let storage : Role → PreCompStorage
    | .comp .p0 => storage0
    | .comp .p1 => storage1
    | .server => storage2
  some ((fun p => match p with | .p0 => val0 | .p1 => val1, val2),
    fun role => Function.update (stores role) depth (storage role))

/-- The storages of the depths that there are hold the parts of these keys. -/
structure Hold (prg : (WIDTH : Nat) → PRG WIDTH) (stores : KeyStores) (left : Nat → List Dealt) : Prop where
  valid : ∀ depth, 1 ≤ depth → depth ≤ addressMaxBits → ∀ d ∈ left depth, d.Valid prg (.rdpf depth false 1)
  parts : ∀ depth, 1 ≤ depth → depth ≤ addressMaxBits → ∀ role,
    HoldsParts (.rdpf depth false 1) role (stores role depth).storage (left depth)

variable {prg : (WIDTH : Nat) → PRG WIDTH} {stores : KeyStores} {left : Nat → List Dealt} {depth : Nat}

/-- The storages after any preprocessing. -/
theorem exists_hold {stock : Nat → JobKind → Nat} {files : Files} (h : FilesReachable prg stock files)
    (thread : Nat) : ∃ left, (init files thread).Hold prg left ∧ ∀ depth, 1 ≤ depth → depth ≤ addressMaxBits →
      (left depth).length = stock thread (.rdpf depth false 1) := by
  have hstored (depth : Nat) : ∃ ds, 1 ≤ depth → depth ≤ addressMaxBits →
      ds.length = stock thread (.rdpf depth false 1) ∧ Stored prg files thread (.rdpf depth false 1) ds := by
    by_cases hdepth : 1 ≤ depth ∧ depth ≤ addressMaxBits
    · have hsupported : (JobKind.rdpf depth false 1).Supported :=
        ⟨⟨hdepth.1, hdepth.2.trans (by decide), by decide⟩, le_rfl, by decide⟩
      obtain ⟨ds, hds⟩ := h.exists_stored thread hsupported (by rintro ⟨⟩)
      exact ⟨ds, fun _ _ => hds⟩
    · exact ⟨[], fun hpos hle => absurd ⟨hpos, hle⟩ hdepth⟩
  choose left hleft using hstored
  refine ⟨left, ⟨fun depth hpos hle => (hleft depth hpos hle).2.valid, fun depth hpos hle role => ?_⟩,
    fun depth hpos hle => (hleft depth hpos hle).1⟩
  exact (hleft depth hpos hle).2.file role _ rfl

theorem read_of_get_comp {incremental : Bool} {p : Player} {bytes rest : List UInt8} {dt : RDPFTriple WIDTH}
    (h : (JobKind.rdpf depth incremental WIDTH).get (.comp p) bytes = some (.triple WIDTH dt, rest)) :
    RDPFTriple.read bytes = some (dt, rest) := by
  obtain ⟨dt', mid, hread, hreturn⟩ := bind_eq_some.mp h
  cases hreturn
  exact hread

theorem read_of_get_server {incremental : Bool} {bytes rest : List UInt8} {dp : RDPFPair WIDTH}
    (h : (JobKind.rdpf depth incremental WIDTH).get .server bytes = some (.pair WIDTH dp, rest)) :
    readArray RDPF.read 2 bytes = some (dp, rest) := by
  obtain ⟨dp', mid, hread, hreturn⟩ := bind_eq_some.mp h
  cases hreturn
  exact hread

/-- The parties take the parts of the next key. -/
theorem Hold.rdpftriple (h : stores.Hold prg left) (hpos : 1 ≤ depth) (hle : depth ≤ addressMaxBits) {d : Dealt}
    {ds : List Dealt} (hleft : left depth = d :: ds) :
    ∃ dt dp stores', stores.rdpftriple depth = some ((dt, dp), stores') ∧
      (Dealt.rdpf 1 dt dp).Valid prg (.rdpf depth false 1) ∧ stores'.Hold prg (Function.update left depth ds) := by
  have hvalid := h.valid depth hpos hle
  have hparts := h.parts depth hpos hle
  rw [hleft] at hvalid hparts
  have hd := hvalid d List.mem_cons_self
  choose v rest hpart hget hrest using fun role => (hparts role).uncons
  cases hd with
  | @rdpf _ _ _ _ _ _ dt dp created made copy0 copy1 =>
      have hcomp p : RDPFTriple.read (stores (.comp p) depth).storage = some (dt p, rest (.comp p)) := by
        have hv : v (.comp p) = .triple 1 (dt p) := (Option.some.inj (hpart (.comp p))).symm
        exact read_of_get_comp (hv ▸ hget (.comp p))
      have hserver : readArray RDPF.read 2 (stores .server depth).storage = some (dp, rest .server) := by
        have hv : v .server = .pair 1 dp := (Option.some.inj (hpart .server)).symm
        exact read_of_get_server (hv ▸ hget .server)
      refine ⟨dt, dp, fun role => Function.update (stores role) depth ⟨rest role, (stores role depth).count + 1⟩, ?_,
        .rdpf created made copy0 copy1, fun level hpos' hle' e he => ?_, fun level hpos' hle' role => ?_⟩
      · simp only [KeyStores.rdpftriple, PreCompStorage.get, hcomp, hserver, Option.bind_eq_bind, Option.bind_some,
          Option.some.injEq, Prod.mk.injEq, and_true]
        refine ⟨funext fun p => ?_, funext fun role => ?_⟩
        · cases p <;> rfl
        · obtain (_ | _) | _ := role <;> rfl
      · rcases eq_or_ne level depth with rfl | hne
        · rw [Function.update_self] at he
          exact hvalid e (List.mem_cons_of_mem _ he)
        · rw [Function.update_of_ne hne] at he
          exact h.valid level hpos' hle' e he
      · rcases eq_or_ne level depth with rfl | hne
        · rw [Function.update_self, Function.update_self]
          exact hrest role
        · rw [Function.update_of_ne hne, Function.update_of_ne hne]
          exact h.parts level hpos' hle' role

/-- Without a key the parties exit. -/
theorem Hold.rdpftriple_none (h : stores.Hold prg left) (hpos : 1 ≤ depth) (hle : depth ≤ addressMaxBits)
    (hleft : left depth = []) : stores.rdpftriple depth = none := by
  have hparts := h.parts depth hpos hle (.comp .p0)
  rw [hleft] at hparts
  rw [KeyStores.rdpftriple, PreCompStorage.get, hparts.eq_nil]
  rfl

end KeyStores

/-! ## The online phase -/

variable {T : Type} [Register T] {oramSize : Nat}

namespace SecretIndex

/-- `A[idx]` as a value, with these keys. -/
def readWith (tio : MPCTIO 1) (A : Shape oramSize) (keys : (Player → RDPFTriple 1) × RDPFPair 1)
    (blinds : Player → Nat → T) (rho : T) (st : Duoram T × Bool) : SecretIndex → (Player → T) × (Duoram T × Bool)
  | as idx => MemRefS.read tio.prg tio.nthreads tio.serverThreads A ⟨keys.1, keys.2, 0, idx⟩ blinds rho st
  | xs idx => MemRefS.read tio.prg tio.nthreads tio.serverThreads A ⟨keys.1, keys.2, 0, idx⟩ blinds rho st

/-- `A[idx] += M` with these keys. -/
def updateWith (tio : MPCTIO 1) (A : Shape oramSize) (keys : (Player → RDPFTriple 1) × RDPFPair 1)
    (M : Player → T) (blinds : Player → Nat → T) (st : Duoram T × Bool) : SecretIndex → Option (Duoram T × Bool)
  | as idx =>
    (MemRefS.oramUpdate tio.prg tio.nthreads tio.serverThreads A ⟨keys.1, keys.2, 0, idx⟩ M blinds st).map Prod.fst
  | xs idx =>
    (MemRefS.oramUpdate tio.prg tio.nthreads tio.serverThreads A ⟨keys.1, keys.2, 0, idx⟩ M blinds st).map Prod.fst

/-- `A[idx] = M` with these keys. -/
def writeWith (tio : MPCTIO 1) (A : Shape oramSize) (keys : (Player → RDPFTriple 1) × RDPFPair 1)
    (M : Player → T) (blinds : Player → Nat → T) (rho : T) (st : Duoram T × Bool) :
    SecretIndex → Option (Duoram T × Bool)
  | as idx =>
    (MemRefS.write tio.prg tio.nthreads tio.serverThreads A ⟨keys.1, keys.2, 0, idx⟩ M blinds rho st).map Prod.fst
  | xs idx =>
    (MemRefS.write tio.prg tio.nthreads tio.serverThreads A ⟨keys.1, keys.2, 0, idx⟩ M blinds rho st).map Prod.fst

end SecretIndex

/-- A Duoram, and the storages that its accesses take their keys from. -/
structure OnlineState (T : Type) where
  duoram : DuoramState T
  stores : KeyStores

/-- An access in the online phase: nothing is drawn for the keys of an oblivious one. -/
def OnlineState.access (tio : MPCTIO 1) (s : OnlineState T) (access : Access T oramSize) :
    Option (OnlineState T × Option (Player → T)) :=
  match access with
  | .oblivRead via idx coins => do
    let (keys, stores) ← s.stores.rdpftriple via.shape.addrSize
    let (res, st) := idx.readWith tio via.shape keys coins.blinds coins.rho (s.duoram.mem, s.duoram.mode via)
    some (⟨s.duoram.after via st, stores⟩, some res)
  | .oblivUpdate via idx M coins => do
    let (keys, stores) ← s.stores.rdpftriple via.shape.addrSize
    let st ← idx.updateWith tio via.shape keys M coins.blinds (s.duoram.mem, s.duoram.mode via)
    some (⟨s.duoram.after via st, stores⟩, none)
  | .oblivWrite via idx M coins => do
    let (keys, stores) ← s.stores.rdpftriple via.shape.addrSize
    let st ← idx.writeWith tio via.shape keys M coins.blinds coins.rho (s.duoram.mem, s.duoram.mode via)
    some (⟨s.duoram.after via st, stores⟩, none)
  | access => (s.duoram.access tio access).map fun (duoram, out) => (⟨duoram, s.stores⟩, out)

/-- The depth of the keys that an access takes. -/
def Access.keyDepth : Access T oramSize → Option Nat
  | .oblivRead via _ _ | .oblivUpdate via _ _ _ | .oblivWrite via _ _ _ => some via.shape.addrSize
  | _ => none

/-- How many keys of a depth a sequence of accesses takes. -/
def keysUsed (accesses : List (Access T oramSize)) (depth : Nat) : Nat :=
  accesses.countP fun access => access.keyDepth = some depth

/-- There are keys for all of the accesses. -/
def EnoughKeys (accesses : List (Access T oramSize)) (left : Nat → Nat) : Prop :=
  ∀ depth, 1 ≤ depth → depth ≤ addressMaxBits → keysUsed accesses depth ≤ left depth

section Online

variable {prg : (WIDTH : Nat) → PRG WIDTH} {tio : MPCTIO 1} {s : OnlineState T} {a : PlainArray T}
  {left : Nat → List Dealt} {access : Access T oramSize} {accesses : List (Access T oramSize)}

theorem Access.keyDepth_bounds {mode : Bool} (hlegal : access.op.Legal mode) {depth : Nat}
    (h : access.keyDepth = some depth) : 1 ≤ depth ∧ depth ≤ addressMaxBits := by
  have hbounds {via : Via oramSize} (hA : via.shape.Oblivious) (heq : some via.shape.addrSize = some depth) :
      1 ≤ depth ∧ depth ≤ addressMaxBits :=
    Option.some.inj heq ▸ ⟨hA.addrSize_pos, hA.addrSize_le.trans (by decide)⟩
  cases access with
  | oblivRead via idx coins => exact hbounds hlegal.1 h
  | oblivUpdate via idx M coins => exact hbounds hlegal.1 h
  | oblivWrite via idx M coins => exact hbounds hlegal.1 h
  | _ => cases h

/-- An access that takes no key is as without precomputation. -/
theorem OnlineState.access_public (h : access.keyDepth = none) :
    s.access tio access = (s.duoram.access tio access).map fun (duoram, out) => (⟨duoram, s.stores⟩, out) := by
  cases access with
  | oblivRead via idx coins => cases h
  | oblivUpdate via idx M coins => cases h
  | oblivWrite via idx M coins => cases h
  | _ => rfl

/-- An access that there is no key for does not succeed. -/
theorem OnlineState.access_none (hstores : s.stores.Hold prg left) {depth : Nat} (hpos : 1 ≤ depth)
    (hle : depth ≤ addressMaxBits) (hdepth : access.keyDepth = some depth) (hleft : left depth = []) :
    s.access tio access = none := by
  have hnone := hstores.rdpftriple_none hpos hle hleft
  cases access with
  | oblivRead via idx coins | oblivUpdate via idx M coins | oblivWrite via idx M coins =>
      cases hdepth
      rw [OnlineState.access, hnone]
      rfl
  | _ => cases hdepth

/-- With a key, the access does to the shares what the operation does to the array. -/
theorem OnlineState.access_spec [Updatable T 1] (hprg : tio.prg = prg 1) (hs : s.duoram.Holds oramSize a)
    (hstores : s.stores.Hold prg left) (hlegal : access.op.Legal a.explicitmode) {depth : Nat}
    (hdepth : access.keyDepth = some depth) {d : Dealt} {ds : List Dealt} (hleft : left depth = d :: ds) :
    ∃ s' out, s.access tio access = some (s', out) ∧ s'.duoram.Holds oramSize (a.step access.op).1 ∧
      opened out = (a.step access.op).2 ∧ s'.stores.Hold prg (Function.update left depth ds) := by
  obtain ⟨hpos, hle⟩ := Access.keyDepth_bounds hlegal hdepth
  obtain ⟨dt, dp, stores', hkeys, hvalid, hstores'⟩ := hstores.rdpftriple hpos hle hleft
  have hox {U : Type} [SharedIndex U] [Targeted U] (idx : Player → U) :
      (⟨dt, dp, 0, idx⟩ : OblivIndex U 1).UpdateValid T tio.prg depth := hprg ▸ hvalid.updateValid idx
  cases access with
  | oblivRead via idx coins =>
      cases hdepth
      cases idx with
      | as idx | xs idx =>
          obtain ⟨res, st, hrun, hholds, hres⟩ := hs.read_valid hlegal.1 (hlegal.2 rfl) (hox idx) rfl coins.blinds
            coins.rho
          refine ⟨⟨s.duoram.after via st, stores'⟩, some res, ?_, hholds, congrArg some hres, hstores'⟩
          simp only [OnlineState.access, SecretIndex.readWith, hkeys, hrun, Option.bind_eq_bind, Option.bind_some]
  | oblivUpdate via idx M coins =>
      cases hdepth
      cases idx with
      | as idx | xs idx =>
          obtain ⟨st, ox', hrun, hholds⟩ := hs.update_valid hlegal.1 hlegal.2 (hox idx) rfl rfl M coins.blinds
          refine ⟨⟨s.duoram.after via st, stores'⟩, none, ?_, hholds, rfl, hstores'⟩
          simp only [OnlineState.access, SecretIndex.updateWith, hkeys, hrun, Option.bind_eq_bind, Option.bind_some,
            Option.map_some]
  | oblivWrite via idx M coins =>
      cases hdepth
      cases idx with
      | as idx | xs idx =>
          obtain ⟨st, ox', hrun, hholds⟩ := hs.write_valid hlegal.1 hlegal.2.1 (hlegal.2.2 rfl) (hox idx) rfl rfl M
            coins.blinds coins.rho
          refine ⟨⟨s.duoram.after via st, stores'⟩, none, ?_, hholds, rfl, hstores'⟩
          simp only [OnlineState.access, SecretIndex.writeWith, hkeys, hrun, Option.bind_eq_bind, Option.bind_some,
            Option.map_some]
  | _ => cases hdepth

omit [Register T] in
/-- An access takes a key of its depth and leaves the others. -/
theorem enoughKeys_cons {depth : Nat} {ds : List Dealt} {d : Dealt} (hdepth : access.keyDepth = some depth)
    (hleft : left depth = d :: ds) :
    EnoughKeys (access :: accesses) (fun level => (left level).length) ↔
      EnoughKeys accesses fun level => (Function.update left depth ds level).length := by
  refine forall_congr' fun level => imp_congr_right fun _ => imp_congr_right fun _ => ?_
  dsimp only
  rw [keysUsed, List.countP_cons, ← keysUsed]
  rcases eq_or_ne level depth with rfl | hne
  · rw [Function.update_self, hleft, List.length_cons, if_pos (decide_eq_true hdepth)]
    exact Nat.add_le_add_iff_right
  · rw [Function.update_of_ne hne, if_neg, Nat.add_zero]
    rw [hdepth, decide_eq_true_eq, Option.some.injEq]
    exact hne.symm

/-- A run of accesses succeeds if there are keys for all, and then does what the operations do to the array. -/
structure OnlineState.Refines (tio : MPCTIO 1) (s : OnlineState T) (a : PlainArray T) (left : Nat → List Dealt)
    (accesses : List (Access T oramSize)) : Prop where
  isSome_iff : (run (OnlineState.access tio) s accesses).isSome ↔
    EnoughKeys accesses fun depth => (left depth).length
  out : ∀ s' outs, run (OnlineState.access tio) s accesses = some (s', outs) →
    outs.map opened = (a.run (accesses.map Access.op)).2 ∧
      s'.duoram.Holds oramSize (a.run (accesses.map Access.op)).1

/-- A run that starts with an access that succeeds. -/
theorem OnlineState.Refines.cons {s' : OnlineState T} {out : Option (Player → T)} {left' : Nat → List Dealt}
    (hrun : s.access tio access = some (s', out)) (hout : opened out = (a.step access.op).2)
    (henough : EnoughKeys (access :: accesses) (fun depth => (left depth).length) ↔
      EnoughKeys accesses fun depth => (left' depth).length)
    (hrest : s'.Refines tio (a.step access.op).1 left' accesses) : s.Refines tio a left (access :: accesses) := by
  constructor
  · rw [run, hrun, Option.bind_some, Option.isSome_map, hrest.isSome_iff, henough]
  · intro s2 outs h
    rw [run, hrun, Option.bind_some] at h
    obtain ⟨⟨s3, outs3⟩, hrun3, heq⟩ := Option.map_eq_some_iff.mp h
    cases heq
    obtain ⟨houts, hholds⟩ := hrest.out _ _ hrun3
    exact ⟨List.cons_eq_cons.mpr ⟨hout, houts⟩, hholds⟩

theorem OnlineState.refines [Updatable T 1] (hprg : tio.prg = prg 1) (hs : s.duoram.Holds oramSize a)
    (hstores : s.stores.Hold prg left) (hlegal : a.Legal (accesses.map Access.op)) :
    s.Refines tio a left accesses := by
  induction accesses generalizing s a left with
  | nil =>
      refine ⟨iff_of_true rfl fun _ _ _ => Nat.zero_le _, ?_⟩
      rintro s' outs ⟨⟩
      exact ⟨rfl, hs⟩
  | cons access accesses ih =>
      cases hdepth : access.keyDepth with
      | none =>
          obtain ⟨duoram, out, hrun, hholds, hout⟩ := hs.access_spec tio hlegal.1
          have haccess : s.access tio access = some (⟨duoram, s.stores⟩, out) := by
            rw [OnlineState.access_public hdepth, hrun]
            rfl
          refine .cons haccess hout (forall_congr' fun depth => ?_) (ih hholds hstores hlegal.2)
          rw [keysUsed, List.countP_cons, ← keysUsed, hdepth]
          rfl
      | some depth =>
          obtain ⟨hpos, hle⟩ := Access.keyDepth_bounds hlegal.1 hdepth
          cases hleft : left depth with
          | nil =>
              have hnone := @OnlineState.access_none _ _ _ _ tio _ _ _ hstores _ hpos hle hdepth hleft
              have hlack : ¬EnoughKeys (access :: accesses) fun depth => (left depth).length := fun henough => by
                have hused : keysUsed (access :: accesses) depth ≤ (left depth).length := henough depth hpos hle
                rw [hleft, keysUsed, List.countP_cons, if_pos (decide_eq_true hdepth)] at hused
                exact Nat.not_succ_le_zero _ hused
              refine ⟨?_, fun s' outs h => ?_⟩
              · rw [run, hnone]
                exact iff_of_false Bool.false_ne_true hlack
              · rw [run, hnone] at h
                cases h
          | cons d ds =>
              obtain ⟨s1, out, hrun, hholds, hout, hstores1⟩ := OnlineState.access_spec hprg hs hstores hlegal.1 hdepth
                hleft
              exact .cons hrun hout (enoughKeys_cons hdepth hleft) (ih hholds hstores1 hlegal.2)

end Online

/-- **Precomputed keys are enough for an array.**  After any preprocessing runs, a sequence of accesses in a
thread succeeds if and only if the runs have made a key for each oblivious access, of the depth of its
shape; and then the shares returned stand for what the array in the clear returns, and the memory for what
it holds. -/
theorem online_iff_stock [Updatable T 1] {prg : (WIDTH : Nat) → PRG WIDTH} {stock : Nat → JobKind → Nat}
    {files : Files} (h : FilesReachable prg stock files) (thread : Nat) (tio : MPCTIO 1) (hprg : tio.prg = prg 1)
    (accesses : List (Access T oramSize)) (hlegal : PlainArray.create.Legal (accesses.map Access.op)) :
    let online := run (OnlineState.access tio) ⟨DuoramState.create, KeyStores.init files thread⟩ accesses
    (online.isSome ↔ EnoughKeys accesses fun depth => stock thread (.rdpf depth false 1)) ∧
      ∀ s outs, online = some (s, outs) →
        outs.map opened = (PlainArray.create.run (accesses.map Access.op)).2 ∧
          ∀ addr, s.duoram.mem.reconstruct addr =
            (PlainArray.create.run (accesses.map Access.op)).1.entries addr := by
  obtain ⟨left, hstores, hlength⟩ := KeyStores.exists_hold h thread
  have hrefines : OnlineState.Refines tio ⟨DuoramState.create, KeyStores.init files thread⟩ PlainArray.create left
      accesses := OnlineState.refines hprg DuoramState.Holds.create hstores hlegal
  refine ⟨hrefines.isSome_iff.trans ?_, fun s outs hrun => (hrefines.out s outs hrun).imp id fun h => h.entries⟩
  refine forall_congr' fun depth => forall_congr' fun hpos => forall_congr' fun hle => ?_
  exact iff_of_eq (congrArg (keysUsed accesses depth ≤ ·) (hlength depth hpos hle))

/-- Two expanded keys for a memory of four words. -/
def keysRun : Preprocessing where
  appendToFiles := false
  expandRdpfs := true
  numThreads := 1
  args := [['r', '2', ':', '2']]
  nthreads _ := ⟨1, Nat.one_pos⟩
  serverThreads := ⟨1, Nat.one_pos⟩
  yields _ _ := 9
  coins _ _ i := ⟨fun _ => 0, fun _ => 0, 0, fun _ => false,
    fun _ => ⟨fun _ => BitVec.ofNat 64 i, fun _ _ => 3, default, fun _ => halftriple (fun _ => 7) 9⟩, fun _ => 0, ⟨0⟩,
    ⟨0⟩, 0⟩

theorem keysRun_legal : keysRun.Legal := by
  have hjobs : ∀ thread < 1, (preprocessingServer thread keysRun.args).jobs = [⟨.rdpf 2 false 1, 2⟩] := by
    decide +kernel
  refine ⟨fun thread hthread job hjob => ?_, fun thread hthread => ?_⟩
  · rw [hjobs thread hthread, List.mem_singleton] at hjob
    rw [hjob]
    exact ⟨⟨le_rfl, by decide⟩, show 2 ≤ 30 by decide⟩
  · rw [hjobs thread hthread]
    decide

/-- A write and a read of entry 2 find their keys, and a third access does not. -/
theorem online_iff_stock_two :
    let tio : MPCTIO 1 := ⟨zeroPrg 1, fun _ => 1, 1⟩
    let coins : AccessCoins RegXS := ⟨⟨fun _ => 0, fun _ _ => 0, default, fun _ => halftriple (fun _ => 0) 0⟩,
      fun _ _ => ⟨6⟩, ⟨4⟩⟩
    let write : Access RegXS 4 :=
      .oblivWrite .whole (.xs fun p => if p.bit then ⟨1⟩ else ⟨3⟩) (fun p => if p.bit then ⟨8⟩ else ⟨1⟩) coins
    let read : Access RegXS 4 := .oblivRead .whole (.as fun p => if p.bit then ⟨-3⟩ else ⟨5⟩) coins
    ∃ files, FilesReachable zeroPrg (keysRun.stockAfter fun _ _ => 0) files ∧
      (∃ s outs, run (OnlineState.access tio) ⟨DuoramState.create, KeyStores.init files 0⟩ [write, read] =
          some (s, outs) ∧ outs.map opened = [none, some ⟨9⟩]) ∧
      run (OnlineState.access tio) ⟨DuoramState.create, KeyStores.init files 0⟩ [write, read, read] = none := by
  intro tio coins write read
  obtain ⟨files, hfiles⟩ := keysRun.exists_ran zeroPrg fun _ => none
  have hreachable := FilesReachable.run keysRun keysRun_legal .empty hfiles
  have hwhole : (Via.whole : Via 4).shape.Oblivious := ⟨trivial, by decide, by decide⟩
  have hwrite (mode : Bool) : write.op.Legal mode := ⟨hwhole, trivial, fun _ => trivial⟩
  have hread (mode : Bool) : read.op.Legal mode := ⟨hwhole, fun _ => trivial⟩
  have htwo : ∀ depth < 33, keysUsed [write, read] depth ≤ keysRun.stockAfter (fun _ _ => 0) 0 (.rdpf depth false 1) := by
    decide +kernel
  have hthree : ¬keysUsed [write, read, read] 2 ≤ keysRun.stockAfter (fun _ _ => 0) 0 (.rdpf 2 false 1) := by
    decide +kernel
  obtain ⟨hsome, hout⟩ := online_iff_stock hreachable 0 tio rfl [write, read] ⟨hwrite _, hread _, trivial⟩
  obtain ⟨hnone, -⟩ := online_iff_stock hreachable 0 tio rfl [write, read, read] ⟨hwrite _, hread _, hread _, trivial⟩
  refine ⟨files, hreachable, ?_, ?_⟩
  · obtain ⟨⟨s, outs⟩, hrun⟩ := Option.isSome_iff_exists.mp (hsome.mpr fun depth _ hle => htwo depth (Nat.lt_succ_of_le hle))
    exact ⟨s, outs, hrun, (hout s outs hrun).1.trans (by decide)⟩
  · refine Option.not_isSome_iff_eq_none.mp fun h => hthree (hnone.mp h 2 (by decide) (by decide))

end Prac
