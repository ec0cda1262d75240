import Prac.DpfFile
import Prac.Expand
import Prac.OblivIndex
import Prac.PreprocFiles

/-!
# Precomputed values (`preproc.cpp`, `mpcio.cpp`)

* `RDPF.expand` — the server expands the RDPFs that it has received; `StoredCopy` — what it then stores.
* `Precomputed` — a value as a party has it, with `write` and `JobKind.get` for its file.
* `Dealt`, `JobKind.generate` — a value with the parts of all parties, as preprocessing makes it.
* `Dealt.Valid` — the parts belong together; `exists_generate`, `Valid.read_write`.
-/

namespace Prac

open Bytes Loop

variable {WIDTH : Nat}

/-! ## Expanding a whole RDPF -/

namespace RDPF

/-- `RDPF::expand`, with as much fuel for every leaf layer. -/
def expand (prg : PRG WIDTH) (fuel : Nat) (dpf : RDPF WIDTH) : Option (RDPF WIDTH) :=
  forRangeOpt 0 dpf.li.length (fun liIndex dpf => dpf.expandLeafLayer prg liIndex fuel) dpf

theorem IsCopy.refl (d : RDPF WIDTH) : d.IsCopy d := ⟨rfl, rfl, rfl, rfl, fun _ => rfl⟩

theorem IsCopy.trans {d d' d'' : RDPF WIDTH} (h : d.IsCopy d') (h' : d'.IsCopy d'') : d.IsCopy d'' :=
  ⟨h.toDPF.trans h'.toDPF, h.maxdepth.trans h'.maxdepth, h.curdepth.trans h'.curdepth,
    h.leafCfbits.trans h'.leafCfbits, fun k => (h.li k).trans (h'.li k)⟩

/-- The leaves of a level. -/
def levelLeaves (prg : PRG WIDTH) (dpf : RDPF WIDTH) (liIndex : Nat) : List (LeafNode WIDTH) :=
  (List.range (2 ^ (dpf.maxdepth - liIndex))).map (dpf.leafAt prg (dpf.maxdepth - liIndex))

theorem IsCopy.levelLeaves {d d' : RDPF WIDTH} (h : d.IsCopy d') (prg : PRG WIDTH) (liIndex : Nat) :
    d.levelLeaves prg liIndex = d'.levelLeaves prg liIndex := by
  unfold RDPF.levelLeaves
  rw [h.maxdepth]
  exact List.map_congr_left fun i _ => h.leafAt prg _ i

/-- A leaf layer without an expansion is expanded. -/
theorem expandLeafLayer_spec (prg : PRG WIDTH) {dpf : RDPF WIDTH} {liIndex fuel : Nat}
    (hpos : 1 ≤ dpf.maxdepth - liIndex) (hle : dpf.maxdepth - liIndex ≤ 31)
    (hnone : dpf.levelExpansion liIndex = []) (hfuel : 2 ^ (dpf.maxdepth - liIndex) ≤ fuel) :
    dpf.expandLeafLayer prg liIndex fuel = some { dpf with
      li := dpf.li.set liIndex { dpf.li.getD liIndex default with expansion := dpf.levelLeaves prg liIndex } } := by
  have hnot : (dpf.levelExpansion liIndex).length ≠ 2 ^ (dpf.maxdepth - liIndex) := by
    rw [hnone]
    exact (Nat.two_pow_pos _).ne
  have htwo : 2 * 1 ≤ 2 ^ (dpf.maxdepth - liIndex) := Nat.pow_le_pow_right Nat.two_pos hpos
  obtain ⟨s, hloop, hleaves⟩ := expandLoop_spec (walkInv_start prg dpf hpos (dpf.levelExpansion liIndex)) hle
    hpos le_rfl htwo (show 2 ^ (dpf.maxdepth - liIndex) < 2 * (1 + fuel) by omega)
  have hall : (List.range (2 ^ (dpf.maxdepth - liIndex))).map s.expansion = dpf.levelLeaves prg liIndex :=
    List.map_congr_left fun i hi => hleaves i (List.mem_range.mp hi)
  rw [expandLeafLayer_run prg rfl hnot, hloop, Option.map_some, hall]

/-- An RDPF whose first `n` leaf levels have been expanded, and the others not. -/
structure ExpandedTo (prg : PRG WIDTH) (dpf : RDPF WIDTH) (n : Nat) (s : RDPF WIDTH) : Prop where
  copy : s.IsCopy dpf
  length : s.li.length = dpf.li.length
  done : ∀ i < n, s.levelExpansion i = dpf.levelLeaves prg i
  todo : ∀ i, n ≤ i → s.levelExpansion i = []

theorem ExpandedTo.step {prg : PRG WIDTH} {dpf s : RDPF WIDTH} {n fuel : Nat} (h : ExpandedTo prg dpf n s)
    (hn : n < dpf.li.length) (hpos : 1 ≤ dpf.maxdepth - n) (hle : dpf.maxdepth - n ≤ 31)
    (hfuel : 2 ^ (dpf.maxdepth - n) ≤ fuel) :
    ∃ s', s.expandLeafLayer prg n fuel = some s' ∧ ExpandedTo prg dpf (n + 1) s' := by
  rw [← h.copy.maxdepth] at hpos hle hfuel
  refine ⟨_, expandLeafLayer_spec prg hpos hle (h.todo n le_rfl) hfuel, ?_⟩
  have hlen : n < s.li.length := h.length.symm ▸ hn
  have hget (i : Nat) : (s.li.set n { s.li.getD n default with expansion := s.levelLeaves prg n }).getD i default =
      if i = n then { s.li.getD n default with expansion := s.levelLeaves prg n } else s.li.getD i default := by
    rcases eq_or_ne i n with rfl | hne
    · rw [if_pos rfl, List.getD_eq_getElem _ _ (by rwa [List.length_set]), List.getElem_set_self]
    · rw [if_neg hne, List.getD_eq_getElem?_getD, List.getElem?_set_ne hne.symm, ← List.getD_eq_getElem?_getD]
  refine ⟨⟨h.copy.toDPF, h.copy.maxdepth, h.copy.curdepth, h.copy.leafCfbits, fun k => ?_⟩, ?_, fun i hi => ?_,
    fun i hi => ?_⟩
  · rw [hget]
    split
    next heq =>
      subst heq
      exact h.copy.li k
    next => exact h.copy.li k
  · exact List.length_set.trans h.length
  · rw [levelExpansion, hget]
    rcases eq_or_ne i n with rfl | hne
    · rw [if_pos rfl]
      exact h.copy.levelLeaves prg i
    · rw [if_neg hne]
      exact h.done i (by omega)
  · rw [levelExpansion, hget, if_neg (by omega)]
    exact h.todo i (by omega)

/-- An RDPF without expansions is expanded. -/
theorem expand_spec (prg : PRG WIDTH) {dpf : RDPF WIDTH} (hli : dpf.li.length ≤ dpf.maxdepth)
    (hle : dpf.maxdepth ≤ 31) (hnone : ∀ i, dpf.levelExpansion i = []) {fuel : Nat}
    (hfuel : 2 ^ dpf.maxdepth ≤ fuel) :
    ∃ dpf', dpf.expand prg fuel = some dpf' ∧ ExpandedTo prg dpf dpf.li.length dpf' := by
  refine forRangeOpt_inv (ExpandedTo prg dpf) (Nat.zero_le _)
    ⟨IsCopy.refl dpf, rfl, fun i hi => absurd hi (Nat.not_lt_zero i), fun i _ => hnone i⟩ ?_
  intro n s _ hn h
  refine h.step hn (by omega) (by omega) (le_trans ?_ hfuel)
  exact Nat.pow_le_pow_right Nat.two_pos (Nat.sub_le _ _)

/-- A copy of an RDPF with no expansion, or with that of every leaf level. -/
structure StoredCopy (prg : PRG WIDTH) (expanded : Bool) (dpf dpf' : RDPF WIDTH) : Prop where
  copy : dpf'.IsCopy dpf
  length : dpf'.li.length = dpf.li.length
  expansion : ∀ i < dpf.li.length, dpf'.levelExpansion i = if expanded then dpf.levelLeaves prg i else []

theorem levelExpansion_received (dpf : RDPF WIDTH) (i : Nat) : dpf.received.levelExpansion i = [] := by
  rw [levelExpansion, received_li]
  rfl

theorem isCopy_received (dpf : RDPF WIDTH) : dpf.received.IsCopy dpf :=
  ⟨rfl, rfl, rfl, rfl, (dpf.received_isCopy 0).li⟩

theorem StoredCopy.received (prg : PRG WIDTH) (dpf : RDPF WIDTH) : StoredCopy prg false dpf dpf.received :=
  ⟨isCopy_received dpf, List.length_map _, fun i _ => levelExpansion_received dpf i⟩

/-- What the server stores of an RDPF that it has received, if it expands it. -/
theorem StoredCopy.exists_expand (prg : PRG WIDTH) {dpf : RDPF WIDTH} (hli : dpf.li.length ≤ dpf.maxdepth)
    (hle : dpf.maxdepth ≤ 31) :
    ∃ dpf', dpf.received.expand prg (2 ^ dpf.maxdepth) = some dpf' ∧ StoredCopy prg true dpf dpf' := by
  have hlen : dpf.received.li.length = dpf.li.length := List.length_map _
  have hcopy := isCopy_received dpf
  obtain ⟨dpf', hexpand, h⟩ := @expand_spec _ prg dpf.received (hlen.symm ▸ hli) hle
    (levelExpansion_received dpf) (2 ^ dpf.maxdepth) le_rfl
  refine ⟨dpf', hexpand, h.copy.trans hcopy, h.length.trans hlen, fun i hi => ?_⟩
  rw [h.done i (hlen.symm ▸ hi)]
  exact hcopy.levelLeaves prg i

theorem StoredCopy.made {prg : PRG WIDTH} {expanded : Bool} {dpf dpf' : RDPF WIDTH}
    (h : StoredCopy prg expanded dpf dpf') (hmade : dpf.Made) : dpf'.Made := by
  have hdpf := h.copy.toDPF
  have hmax := h.copy.maxdepth
  refine ⟨hmax.symm ▸ hmade.pos, hmax.symm ▸ hmade.le, ?_, ?_, ?_, ?_, ?_, ?_, ?_⟩
  · rw [h.copy.curdepth, hmax, hmade.curdepth]
  · rw [hdpf]
    exact hmade.whichhalf
  · rw [hdpf, hmax]
    exact hmade.cw
  · rw [hdpf, hmax]
    exact hmade.cfbits
  · rw [h.length, hmax]
    exact hmade.li
  · rw [h.copy.leafCfbits, h.length]
    exact hmade.leafCfbits
  · rw [h.length, hmax]
    have hexp := h.expansion
    cases expanded with
    | false => exact .inl hexp
    | true =>
        refine .inr fun i hi => ?_
        have hlen := congrArg List.length (hexp i hi)
        rwa [if_pos rfl, levelLeaves, List.length_map, List.length_range] at hlen

end RDPF

/-! ## The triples that P0 and P1 make -/

theorem RDPFTriple.create_made (tio : MPCTIO WIDTH) (coins : TripleCoins WIDTH) {depth : Nat} (hpos : 1 ≤ depth)
    (hle : depth ≤ 30) (incremental save : Bool) :
    ∃ dt, RDPFTriple.create tio coins depth incremental save = some dt ∧
      RDPFTriple.Created tio.prg save coins depth incremental dt ∧ ∀ p, (dt p).Made := by
  obtain ⟨dt, hcreate, hcreated⟩ := RDPFTriple.exists_create tio coins hle incremental save
  refine ⟨dt, hcreate, hcreated, fun p => ?_⟩
  have hmade k := Prac.create_made tio.prg tio.nthreads (coins.seeds k) (coins.target depth) hpos hle incremental save
    (coins.triples k)
  choose dpf hrun hdpf using hmade
  have hdt : (dt p).dpf = ![dpf 0 p, dpf 1 p, dpf 2 p] := by
    simp only [RDPFTriple.create, hrun, Option.bind_eq_bind, Option.bind_some, Option.some.injEq] at hcreate
    rw [← hcreate]
  have hmask (v : Value) : (v &&& maskBits depth).toNat < 2 ^ depth := by
    rw [toNat_and_maskBits (by omega)]
    exact BitVec.isLt _
  have hdepth : (dt p).depth = depth := hcreated.curdepth p 0
  refine ⟨fun k => ?_, ?_, ?_⟩
  · rw [hdt]
    exact Fin.cases (hdpf 0 p) (Fin.cases (hdpf 1 p) (Fin.cases (hdpf 2 p) fun k => k.elim0)) k
  · rw [hdepth, hcreated.asTarget]
    exact hmask _
  · rw [hdepth, hcreated.xsTarget]
    exact hmask _

theorem RDPFTriple.Made.li_le {dt : RDPFTriple WIDTH} (h : dt.Made) (k : Fin 3) :
    (dt.dpf k).li.length ≤ (dt.dpf k).maxdepth := by
  have hpos := (h.dpf k).pos
  rcases (h.dpf k).li with hli | hli <;> omega

/-! ## The CDPFs that the server makes -/

namespace CDPF

/-- What the loop of `generate` keeps true of the two halves' form. -/
structure GenerateForm (level : Nat) (g : Generation) : Prop where
  whichhalf : ∀ p, (g.dpf p).whichhalf = getLsb (g.dpf p).seed
  cw_length : ∀ p, (g.dpf p).cw.length = level
  cfbits : ∀ p, (g.dpf p).cfbits < 2 ^ level

theorem GenerateForm.push {level : Nat} {g g' : Generation} (h : GenerateForm level g) {CW : DPFnode} {cfbit : Bool}
    (hpush : ∀ p, (g'.dpf p).toDPF = (g.dpf p).pushLevel level CW cfbit) : GenerateForm (level + 1) g' := by
  refine ⟨fun p => ?_, fun p => ?_, fun p => ?_⟩
  · rw [hpush]
    exact h.whichhalf p
  · rw [hpush]
    show ((g.dpf p).cw ++ [CW]).length = _
    rw [List.length_append, h.cw_length]
    rfl
  · rw [hpush]
    refine Nat.or_lt_two_pow ((h.cfbits p).trans (Nat.pow_lt_pow_right Nat.one_lt_two (Nat.lt_succ_self level))) ?_
    calc cfbit.toNat <<< level
        = cfbit.toNat * 2 ^ level := Nat.shiftLeft_eq _ _
      _ ≤ 1 * 2 ^ level := Nat.mul_le_mul_right _ (Bool.toNat_le _)
      _ < 2 ^ (level + 1) := by rw [Nat.one_mul]; exact Nat.pow_lt_pow_right Nat.one_lt_two (Nat.lt_succ_self level)

theorem GenerateForm.step (prg : DPFnode → Bool → DPFnode) (target : Value) {level : Nat} {g : Generation}
    (h : GenerateForm level g) : GenerateForm (level + 1) (generateStep prg target level g) := by
  unfold generateStep
  dsimp only
  split <;> split <;> exact h.push fun p => rfl

theorem generate_made (prg : DPFnode → Bool → DPFnode) (seeds : Player → DPFnode) (asTarget : RegAS)
    (xsTarget : RegXS) (target : Value) (p : Player) : (generate prg seeds asTarget xsTarget target p).Made := by
  have h : GenerateForm depth (forRange 0 depth (generateStep prg target)
      (generateInit seeds asTarget xsTarget target)) := by
    refine forRange_inv GenerateForm (Nat.zero_le depth) ⟨fun p => ?_, fun _ => rfl, fun _ => Nat.one_pos⟩
      fun level g _ _ h => h.step prg target
    exact (getLsb_setLsb _ _).symm
  refine ⟨h.whichhalf p, h.cw_length p, (h.cfbits p).trans_le ?_⟩
  exact Nat.pow_le_pow_right Nat.two_pos (by decide)

end CDPF

/-! ## Values in a file -/

/-- A precomputed value as a party has it.  An AND triple is of the type of a multiplication triple. -/
inductive Precomputed where
  | mult (X Y Z : Value)
  | half (X Z : Value)
  | select (X : Bool) (Y Z : Value)
  | triple (WIDTH : Nat) (dt : RDPFTriple WIDTH)
  | pair (WIDTH : Nat) (dp : RDPFPair WIDTH)
  | cdpf (dpf : CDPF)

/-- `operator<<`.  A tuple is written as it is in memory, where its last member is first. -/
def Precomputed.write : Precomputed → Option (List UInt8)
  | mult X Y Z => some (putValue 8 Z ++ (putValue 8 Y ++ putValue 8 X))
  | half X Z => some (putValue 8 Z ++ putValue 8 X)
  | select X Y Z => some (leBytes 1 X.toNat ++ (putValue 8 Y ++ putValue 8 Z))
  | triple _ dt => dt.write
  | pair _ dp => RDPFTuple.write dp
  | cdpf dpf => some dpf.write

/-- `operator>>` at the type that a party's storage for a kind holds. -/
def JobKind.get (role : Role) : JobKind → Reader Precomputed
  | mult | and => do
    let Z ← getValue 8
    let Y ← getValue 8
    let X ← getValue 8
    return .mult X Y Z
  | half => do
    let Z ← getValue 8
    let X ← getValue 8
    return .half X Z
  | select => do
    let X ← takeLe 1
    let Y ← getValue 8
    let Z ← getValue 8
    return .select (X ≠ 0) Y Z
  | rdpf _ _ width =>
    match role with
    | .comp _ => do
      let dt ← RDPFTriple.read
      return .triple width dt
    | .server => do
      let dp ← readArray RDPF.read 2
      return .pair width dp
  | cdpf => do
    let dpf ← CDPF.read
    return .cdpf dpf
  | counter => failure

/-! ## Values of all parties -/

/-- `MPCTIO::andtriple`. -/
def andtriple (X Y : Player → Value) (Z0 : Value) : AndTriple where
  X := X
  Y := Y
  Z
    | .p0 => Z0
    | .p1 => ((X .p0 &&& Y .p1) ^^^ (X .p1 &&& Y .p0)) ^^^ Z0
  valid := by
    show _ = Z0 ^^^ (_ ^^^ Z0)
    rw [BitVec.xor_comm _ Z0, xor_cancel_left, BitVec.and_comm (Y .p0)]

/-- A precomputed value with the parts of all parties. -/
inductive Dealt where
  | mult (T : MultTriple)
  | half (T : HalfTriple)
  | and (T : AndTriple)
  | select (T : ValSelectTriple)
  | rdpf (WIDTH : Nat) (dt : Player → RDPFTriple WIDTH) (dp : RDPFPair WIDTH)
  | cdpf (dpf : Player → CDPF)

/-- The part of a party.  The server keeps its RDPFs only. -/
def Dealt.part : Dealt → Role → Option Precomputed
  | mult T, .comp p => some (.mult (T.X p) (T.Y p) (T.Z p))
  | half T, .comp p => some (.half (T.X p) (T.Z p))
  | and T, .comp p => some (.mult (T.X p) (T.Y p) (T.Z p))
  | select T, .comp p => some (.select (T.X p) (T.Y p) (T.Z p))
  | rdpf WIDTH dt _, .comp p => some (.triple WIDTH (dt p))
  | rdpf WIDTH _ dp, .server => some (.pair WIDTH dp)
  | cdpf dpf, .comp p => some (.cdpf (dpf p))
  | _, .server => none

/-- What is drawn for a value. -/
structure PrecompCoins where
  X : Player → Value
  Y : Player → Value
  Z0 : Value
  bit : Player → Bool
  triple : (WIDTH : Nat) → TripleCoins WIDTH
  seeds : Player → DPFnode
  asTarget : RegAS
  xsTarget : RegXS
  target : Value

/-- What the coroutines of the three parties make of a value. -/
def JobKind.generate (tio : (WIDTH : Nat) → MPCTIO WIDTH) (expandRdpfs : Bool) (coins : PrecompCoins) :
    JobKind → Option Dealt
  | mult => some (.mult (multtriple coins.X coins.Y coins.Z0))
  | half => some (.half (halftriple coins.X coins.Z0))
  | and => some (.and (andtriple coins.X coins.Y coins.Z0))
  | select => some (.select (valselecttriple coins.bit coins.Y coins.Z0))
  | rdpf depth incremental width => do
    let (rdpftrip, rdpfpair) ← (tio width).rdpftriple (coins.triple width) depth incremental expandRdpfs
    if expandRdpfs then
      let dpf0 ← (rdpfpair ⟨0, Nat.two_pos⟩).expand (tio width).prg (2 ^ depth)
      let dpf1 ← (rdpfpair ⟨1, Nat.one_lt_two⟩).expand (tio width).prg (2 ^ depth)
      some (.rdpf width rdpftrip ![dpf0, dpf1])
    else some (.rdpf width rdpftrip rdpfpair)
  | cdpf =>
    some (.cdpf (CDPF.generate (tio 1).prg.node coins.seeds coins.asTarget coins.xsTarget coins.target))
  | counter => none

/-- A value of a kind whose parts belong together.  The triples carry their relations. -/
inductive Dealt.Valid (prg : (WIDTH : Nat) → PRG WIDTH) : JobKind → Dealt → Prop where
  | mult (T : MultTriple) : Valid prg .mult (.mult T)
  | half (T : HalfTriple) : Valid prg .half (.half T)
  | and (T : AndTriple) : Valid prg .and (.and T)
  | select (T : ValSelectTriple) : Valid prg .select (.select T)
  | rdpf {width depth : Nat} {incremental save expanded : Bool} {coins : TripleCoins width}
      {dt : Player → RDPFTriple width} {dp : RDPFPair width}
      (created : RDPFTriple.Created (prg width) save coins depth incremental dt) (made : ∀ p, (dt p).Made)
      (copy0 : RDPF.StoredCopy (prg width) expanded ((dt .p0).dpf 1) (dp 0))
      (copy1 : RDPF.StoredCopy (prg width) expanded ((dt .p1).dpf 2) (dp 1)) :
      Valid prg (.rdpf depth incremental width) (.rdpf width dt dp)
  | cdpf (seeds : Player → DPFnode) (asTarget : RegAS) (xsTarget : RegXS) (target : Value) :
      Valid prg .cdpf (.cdpf (CDPF.generate (prg 1).node seeds asTarget xsTarget target))

/-- RDPFs of a depth up to 30. -/
def JobKind.Shallow : JobKind → Prop
  | rdpf depth _ _ => depth ≤ 30
  | _ => True

theorem exists_rdpf (tio : (WIDTH : Nat) → MPCTIO WIDTH) (expandRdpfs : Bool) (coins : PrecompCoins) {depth : Nat}
    (hpos : 1 ≤ depth) (hle : depth ≤ 30) (incremental : Bool) (width : Nat) :
    ∃ d, JobKind.generate tio expandRdpfs coins (.rdpf depth incremental width) = some d ∧
      d.Valid (fun WIDTH => (tio WIDTH).prg) (.rdpf depth incremental width) := by
  obtain ⟨dt, hcreate, hcreated, hmade⟩ := RDPFTriple.create_made (tio width) (coins.triple width) hpos hle
    incremental expandRdpfs
  have htriple : (tio width).rdpftriple (coins.triple width) depth incremental expandRdpfs =
      some (dt, ![((dt .p0).dpf 1).received, ((dt .p1).dpf 2).received]) := by
    rw [ MPCTIO.rdpftriple, hcreate]
    rfl
  cases expandRdpfs with
  | false =>
      refine ⟨.rdpf width dt ![((dt .p0).dpf 1).received, ((dt .p1).dpf 2).received], ?_, ?_⟩
      · simp only [JobKind.generate, htriple, Option.bind_eq_bind, Option.bind_some, Bool.false_eq_true, if_false]
      · exact .rdpf hcreated hmade (RDPF.StoredCopy.received _ _) (RDPF.StoredCopy.received _ _)
  | true =>
      have hexpand p k := RDPF.StoredCopy.exists_expand (tio width).prg ((hmade p).li_le k) (by
        rw [hcreated.maxdepth]
        omega)
      simp only [hcreated.maxdepth] at hexpand
      obtain ⟨dpf0, hrun0, hcopy0⟩ := hexpand .p0 1
      obtain ⟨dpf1, hrun1, hcopy1⟩ := hexpand .p1 2
      refine ⟨.rdpf width dt ![dpf0, dpf1], ?_, .rdpf hcreated hmade hcopy0 hcopy1⟩
      simp only [JobKind.generate, htriple, Option.bind_eq_bind, Option.bind_some, if_true]
      show (((dt .p0).dpf 1).received.expand (tio width).prg (2 ^ depth)).bind _ = _
      rw [hrun0, Option.bind_some]
      show (((dt .p1).dpf 2).received.expand (tio width).prg (2 ^ depth)).bind _ = _
      rw [hrun1, Option.bind_some]

/-- The parties make a value of every kind that they are asked for. -/
theorem JobKind.exists_generate {kind : JobKind} (hscanned : kind.Scanned) (hshallow : kind.Shallow)
    (hne : kind ≠ .counter) (tio : (WIDTH : Nat) → MPCTIO WIDTH) (expandRdpfs : Bool) (coins : PrecompCoins) :
    ∃ d, kind.generate tio expandRdpfs coins = some d ∧ d.Valid (fun WIDTH => (tio WIDTH).prg) kind := by
  cases kind with
  | mult => exact ⟨_, rfl, .mult _⟩
  | half => exact ⟨_, rfl, .half _⟩
  | and => exact ⟨_, rfl, .and _⟩
  | select => exact ⟨_, rfl, .select _⟩
  | rdpf depth incremental width => exact exists_rdpf tio expandRdpfs coins hscanned.1 hshallow incremental width
  | cdpf => exact ⟨_, rfl, .cdpf _ _ _ _⟩
  | counter => exact absurd rfl hne

namespace Dealt

variable {prg : (WIDTH : Nat) → PRG WIDTH} {kind : JobKind} {d : Dealt} {role : Role}

/-- The parties that have a part of a value are those that have a file for it. -/
theorem Valid.part_isSome (h : d.Valid prg kind) (role : Role) : (d.part role).isSome = (kind.stem role).isSome := by
  cases h <;> cases role <;> rfl

theorem bool_reads (X : Bool) : Reads (takeLe 1) (leBytes 1 X.toNat) X.toNat :=
  Reads.takeLe (by cases X <;> decide)

/-- Every part is read back from a file as it was. -/
theorem Valid.read_write (h : d.Valid prg kind) {v : Precomputed} (hv : d.part role = some v) :
    ∃ bytes, v.write = some bytes ∧ Reads (kind.get role) bytes v := by
  have hword (x : Value) : Reads (getValue 8) (putValue 8 x) x := getValue_reads (toNat_lt_bytes x)
  cases h with
  | mult T | and T =>
      cases role <;> cases hv
      exact ⟨_, rfl, (hword _).bind ((hword _).bind ((hword _).map _))⟩
  | half T =>
      cases role <;> cases hv
      exact ⟨_, rfl, (hword _).bind ((hword _).map _)⟩
  | select T =>
      cases role <;> cases hv
      next p =>
        have hbit : decide ((T.X p).toNat ≠ 0) = T.X p := by cases T.X p <;> rfl
        refine ⟨_, rfl, (bool_reads (T.X p)).bind ((hword _).bind ?_)⟩
        rw [hbit]
        exact (hword _).map _
  | rdpf created made copy0 copy1 =>
      cases role <;> cases hv
      · obtain ⟨bytes, hwrite, hread⟩ := RDPFTriple.read_write (made _)
        exact ⟨bytes, hwrite, hread.map _⟩
      · obtain ⟨bytes, hwrite, hread⟩ := RDPFTuple.read_write (Fin.forall_fin_two.mpr
          ⟨copy0.made ((made .p0).dpf 1), copy1.made ((made .p1).dpf 2)⟩)
        exact ⟨bytes, hwrite, hread.map _⟩
  | cdpf seeds asTarget xsTarget target =>
      cases role <;> cases hv
      exact ⟨_, rfl, (CDPF.read_write (CDPF.generate_made _ _ _ _ _ _)).map _⟩

end Dealt

end Prac
