import Prac.Duoram
import Prac.RdpfKeygen
import Prac.Cdpf
import Prac.Lib.Bytes

/-!
# The file format of precomputed DPFs (`rdpf.tcc`, `cdpf.tcc`)

* `writeMaybeExpanded`, `RDPF.read` — an RDPF: the depth byte also says whether the RDPF is incremental
  and whether its expansion follows.
* `RDPFTriple`, `RDPFPair`, `CDPF` — the same for the other objects that a file may hold.
* `RDPF.Made` — an RDPF as the constructor makes it (`create_made`), at its maximum depth.
* `Item` — the objects of a mixed file, with `writeAll`; `Kind.read` reads the next one.

Words and nodes are in memory, and so in a file, with the least significant byte first.
-/

namespace Prac

open Bytes

variable {WIDTH : Nat}

/-! ## Words, nodes and leaves -/

def putNode (x : DPFnode) : List UInt8 := leBytes 16 x.toNat

def getNode : Reader DPFnode := do
  let x ← takeLe 16
  return BitVec.ofNat 128 x

/-- The low `n` bytes of a word. -/
def putValue (n : Nat) (x : Value) : List UInt8 := leBytes n x.toNat

/-- A word of which only the low `n` bytes are stored; the others are 0. -/
def getValue (n : Nat) : Reader Value := do
  let x ← takeLe n
  return BitVec.ofNat 64 x

def putAS (n : Nat) (x : RegAS) : List UInt8 := putValue n x.ashare

def getAS (n : Nat) : Reader RegAS := do
  let x ← getValue n
  return ⟨x⟩

def putXS (n : Nat) (x : RegXS) : List UInt8 := putValue n x.xshare

def getXS (n : Nat) : Reader RegXS := do
  let x ← getValue n
  return ⟨x⟩

def putLeaf (leaf : LeafNode WIDTH) : List UInt8 :=
  (List.ofFn leaf).flatMap putNode

def getLeaf : Reader (LeafNode WIDTH) :=
  readArray getNode (LWIDTH WIDTH)

/-- The members of a `LeafInfo`, less the expansion. -/
def LeafInfo.put (info : LeafInfo WIDTH) : List UInt8 :=
  putLeaf info.leafCw ++ (putValue 8 info.unitSumInverse ++
    ((List.ofFn info.scaledSum).flatMap (putAS 8) ++ (List.ofFn info.scaledXor).flatMap (putXS 8)))

/-- The members of a `LeafInfo`, into one that has this expansion. -/
def LeafInfo.get (expansion : List (LeafNode WIDTH)) : Reader (LeafInfo WIDTH) := do
  let leafCw ← getLeaf
  let unitSumInverse ← getValue 8
  let scaledSum ← readArray (getAS 8) WIDTH
  let scaledXor ← readArray (getXS 8) WIDTH
  return { leafCw, unitSumInverse, scaledSum, scaledXor, expansion }

theorem getNode_reads (x : DPFnode) : Reads getNode (putNode x) x := by
  have hlt : x.toNat < 256 ^ 16 := by simpa using x.isLt
  have h := (Reads.takeLe hlt).map (BitVec.ofNat 128)
  rwa [BitVec.ofNat_toNat, BitVec.setWidth_eq] at h

theorem getValue_reads {n : Nat} {x : Value} (h : x.toNat < 256 ^ n) :
    Reads (getValue n) (putValue n x) x := by
  have hget := (Reads.takeLe h).map (BitVec.ofNat 64)
  rwa [BitVec.ofNat_toNat, BitVec.setWidth_eq] at hget

theorem toNat_lt_bytes (x : Value) : x.toNat < 256 ^ 8 := by
  simpa using x.isLt

theorem getAS_reads {n : Nat} {x : RegAS} (h : x.ashare.toNat < 256 ^ n) :
    Reads (getAS n) (putAS n x) x :=
  (getValue_reads h).map RegAS.mk

theorem getXS_reads {n : Nat} {x : RegXS} (h : x.xshare.toNat < 256 ^ n) :
    Reads (getXS n) (putXS n x) x :=
  (getValue_reads h).map RegXS.mk

theorem getLeaf_reads (leaf : LeafNode WIDTH) : Reads getLeaf (putLeaf leaf) leaf :=
  Reads.readArray getNode_reads leaf

theorem LeafInfo.get_reads (info : LeafInfo WIDTH) (expansion : List (LeafNode WIDTH)) :
    Reads (LeafInfo.get expansion) info.put { info with expansion } := by
  refine (getLeaf_reads info.leafCw).bind ((getValue_reads (toNat_lt_bytes _)).bind ?_)
  have hsum := Reads.readArray (fun x => getAS_reads (toNat_lt_bytes x.ashare)) info.scaledSum
  have hxor := Reads.readArray (fun x => getXS_reads (toNat_lt_bytes x.xshare)) info.scaledXor
  exact hsum.bind (hxor.map _)

/-- A number of `n` bits fits into `bitBytes n` bytes. -/
theorem lt_bitBytes {n x : Nat} (h : x < 2 ^ n) : x < 256 ^ bitBytes n := by
  calc x < 2 ^ n := h
    _ ≤ 2 ^ (8 * bitBytes n) := Nat.pow_le_pow_right Nat.two_pos (le_bitBytes n)
    _ = 256 ^ bitBytes n := by rw [Nat.pow_mul]

/-! ## RDPFs -/

namespace RDPF

/-- The depth byte: 64 more for an expanded RDPF, 128 more for an incremental one. -/
def packDepth (depth : Nat) (expanded incremental : Bool) : Nat :=
  let expandedDepth := if expanded then depth + 64 else depth
  if incremental then expandedDepth + 128 else expandedDepth

/-- The depth, whether the RDPF is expanded, and whether it is incremental. -/
def unpackDepth (depth : Nat) : Nat × Bool × Bool :=
  let readIncremental : Bool := depth > 128
  let depth := if readIncremental then depth - 128 else depth
  let readExpanded : Bool := depth > 64
  (if readExpanded then depth - 64 else depth, readExpanded, readIncremental)

theorem unpackDepth_packDepth {depth : Nat} (hpos : 1 ≤ depth) (hle : depth ≤ 64)
    (expanded incremental : Bool) :
    unpackDepth (packDepth depth expanded incremental) = (depth, expanded, incremental) := by
  cases expanded <;> cases incremental <;> simp only [packDepth, unpackDepth] <;> grind

theorem packDepth_lt {depth : Nat} (hle : depth < 64) (expanded incremental : Bool) :
    packDepth depth expanded incremental < 256 ^ 1 := by
  cases expanded <;> cases incremental <;> simp [packDepth] <;> omega

/-- The expansion of leaf level `i`, as `write_maybe_expanded` writes it: `2 ^ level` entries. -/
def putExpansion (dpf : RDPF WIDTH) (i : Nat) : List UInt8 :=
  let level := dpf.maxdepth - i
  (List.range (2 ^ level)).flatMap fun j => putLeaf ((dpf.li.getD i default).expansion.getD j 0)

/-- `write_maybe_expanded`.  It fails where the assertion does. -/
def writeMaybeExpanded (dpf : RDPF WIDTH) (expanded : Bool) : Option (List UInt8) :=
  let depth := dpf.maxdepth
  if depth ≤ addressMaxBits then
    let writeExpansion : Bool := expanded && (dpf.li.getD 0 default).expansion.length = 2 ^ depth
    let numLeaflevels := dpf.li.length
    some <| putNode dpf.seed ++ (leBytes 1 (packDepth depth writeExpansion (numLeaflevels > 1)) ++
      ((List.range (depth - 1)).flatMap (fun i => putNode (dpf.cw.getD i 0)) ++
      ((if writeExpansion then (List.range numLeaflevels).flatMap dpf.putExpansion else []) ++
      (leBytes (bitBytes (depth - 1)) dpf.cfbits ++ (leBytes (bitBytes numLeaflevels) dpf.leafCfbits ++
      (List.range numLeaflevels).flatMap fun i => (dpf.li.getD i default).put)))))
  else none

/-- `operator<<`. -/
def write (dpf : RDPF WIDTH) : Option (List UInt8) := dpf.writeMaybeExpanded false

/-- The expansions of the leaf levels; a fresh RDPF has none. -/
def getExpansions (readExpanded : Bool) (depth numLeaflevels : Nat) :
    Reader (List (List (LeafNode WIDTH))) :=
  if readExpanded then
    readAll (fun i => readList getLeaf (2 ^ (depth - i))) (List.range numLeaflevels)
  else
    pure (List.replicate numLeaflevels [])

/-- `operator>>`, into a fresh RDPF. -/
def read : Reader (RDPF WIDTH) := do
  let seed ← getNode
  let depthByte ← takeLe 1
  let (depth, readExpanded, readIncremental) := unpackDepth depthByte
  check (depth ≤ addressMaxBits)
  let cw ← readList getNode (depth - 1)
  let numLeaflevels := if readIncremental then depth else 1
  let expansions ← getExpansions readExpanded depth numLeaflevels
  let cfbits ← takeLe (bitBytes (depth - 1))
  let leafCfbits ← takeLe (bitBytes numLeaflevels)
  let li ← readAll (fun i => LeafInfo.get (expansions.getD i [])) (List.range numLeaflevels)
  return { seed, whichhalf := getLsb seed, cw, cfbits, maxdepth := depth, curdepth := depth, li, leafCfbits }

/-- An RDPF as the constructor makes it, at its maximum depth. -/
structure Made (dpf : RDPF WIDTH) : Prop where
  pos : 1 ≤ dpf.maxdepth
  le : dpf.maxdepth ≤ 30
  curdepth : dpf.curdepth = dpf.maxdepth
  whichhalf : dpf.whichhalf = getLsb dpf.seed
  cw : dpf.cw.length = dpf.maxdepth - 1
  cfbits : dpf.cfbits < 2 ^ (dpf.maxdepth - 1)
  li : dpf.li.length = 1 ∨ dpf.li.length = dpf.maxdepth
  leafCfbits : dpf.leafCfbits < 2 ^ dpf.li.length
  expansion : (∀ i < dpf.li.length, (dpf.li.getD i default).expansion = []) ∨
    ∀ i < dpf.li.length, (dpf.li.getD i default).expansion.length = 2 ^ (dpf.maxdepth - i)

/-- The RDPF without its expansion. -/
def unexpanded (dpf : RDPF WIDTH) : RDPF WIDTH := { dpf with li := dpf.li.map LeafInfo.key }

section Made

variable {dpf : RDPF WIDTH}

/-- The stored expansions are read back. -/
theorem expansions_read
    (hlen : ∀ i < dpf.li.length, (dpf.li.getD i default).expansion.length = 2 ^ (dpf.maxdepth - i)) :
    Reads (getExpansions true dpf.maxdepth dpf.li.length)
      ((List.range dpf.li.length).flatMap dpf.putExpansion)
      ((List.range dpf.li.length).map fun i => (dpf.li.getD i default).expansion) := by
  refine Reads.readAll fun i hi => ?_
  have hi := hlen i (List.mem_range.1 hi)
  rw [putExpansion, ← hi]
  exact Reads.readList 0 fun leaf _ => getLeaf_reads leaf

theorem Made.li_pos (h : dpf.Made) : 0 < dpf.li.length := by
  have hpos := h.pos
  rcases h.li with hli | hli <;> omega

/-- What `read` makes of the leaf levels, with these expansions. -/
theorem li_read {expansions : List (List (LeafNode WIDTH))} {li : List (LeafInfo WIDTH)}
    (hlen : li.length = dpf.li.length)
    (hli : ∀ i < dpf.li.length,
      li.getD i default = { dpf.li.getD i default with expansion := expansions.getD i [] }) :
    Reads (readAll (fun i => LeafInfo.get (expansions.getD i [])) (List.range dpf.li.length))
      ((List.range dpf.li.length).flatMap fun i => (dpf.li.getD i default).put) li := by
  have hread := @Reads.readAll _ _ (fun i => LeafInfo.get (expansions.getD i []))
    (fun i => (dpf.li.getD i default).put) (fun i => li.getD i default) (List.range dpf.li.length)
    fun i hi => by
      rw [hli i (List.mem_range.1 hi)]
      exact LeafInfo.get_reads _ _
  rwa [← hlen, map_getD_range, hlen] at hread

/-- What follows the depth byte. -/
theorem Made.read_body (h : dpf.Made) {expansions : List (List (LeafNode WIDTH))}
    {readExpanded : Bool} {stored : List UInt8} {li : List (LeafInfo WIDTH)}
    (hstored : Reads (getExpansions readExpanded dpf.maxdepth dpf.li.length) stored expansions)
    (hlen : li.length = dpf.li.length)
    (hli : ∀ i < dpf.li.length,
      li.getD i default = { dpf.li.getD i default with expansion := expansions.getD i [] }) :
    Reads read (putNode dpf.seed ++
      (leBytes 1 (packDepth dpf.maxdepth readExpanded (dpf.li.length > 1)) ++
      ((List.range (dpf.maxdepth - 1)).flatMap (fun i => putNode (dpf.cw.getD i 0)) ++
      (stored ++ (leBytes (bitBytes (dpf.maxdepth - 1)) dpf.cfbits ++
      (leBytes (bitBytes dpf.li.length) dpf.leafCfbits ++
      (List.range dpf.li.length).flatMap fun i => (dpf.li.getD i default).put))))))
      { dpf with li } := by
  have hle := h.le
  have hnum : (if decide (dpf.li.length > 1) = true then dpf.maxdepth else 1) = dpf.li.length := by
    have hpos := h.li_pos
    rcases h.li with hli | hli <;> simp only [decide_eq_true_eq] <;> split <;> omega
  have hcw := Reads.readList 0 fun (x : DPFnode) (_ : x ∈ dpf.cw) => getNode_reads x
  rw [h.cw] at hcw
  refine (getNode_reads dpf.seed).bind ((Reads.takeLe (packDepth_lt (by omega) _ _)).bind ?_)
  rw [unpackDepth_packDepth h.pos (by omega)]
  refine Reads.check_bind (le_trans hle (by decide)) (hcw.bind ?_)
  simp only [hnum]
  refine hstored.bind ((Reads.takeLe (lt_bitBytes h.cfbits)).bind
    ((Reads.takeLe (lt_bitBytes h.leafCfbits)).bind ?_))
  have hval : RDPF.mk ⟨dpf.seed, getLsb dpf.seed, dpf.cw, dpf.cfbits⟩ dpf.maxdepth dpf.maxdepth li
      dpf.leafCfbits = { dpf with li } := by
    rw [← h.whichhalf, ← h.curdepth]
  rw [← hval]
  exact (li_read hlen hli).map fun li =>
    RDPF.mk ⟨dpf.seed, getLsb dpf.seed, dpf.cw, dpf.cfbits⟩ dpf.maxdepth dpf.maxdepth li dpf.leafCfbits

theorem unexpanded_eq (hnone : ∀ i < dpf.li.length, (dpf.li.getD i default).expansion = []) :
    dpf.unexpanded = dpf := by
  have hkey : dpf.li.map LeafInfo.key = dpf.li := by
    refine List.ext_getElem (List.length_map _) fun i h h' => ?_
    have hexp := hnone i h'
    rw [List.getD_eq_getElem _ _ h'] at hexp
    rw [List.getElem_map, LeafInfo.key, ← hexp]
  rw [unexpanded, hkey]

/-- An RDPF is read back as it was, or without its expansion if that was not to be written. -/
theorem Made.read_write (h : dpf.Made) (expanded : Bool) :
    ∃ bytes, dpf.writeMaybeExpanded expanded = some bytes ∧
      Reads read bytes (if expanded then dpf else dpf.unexpanded) := by
  have hle : dpf.maxdepth ≤ addressMaxBits := le_trans h.le (by decide)
  refine ⟨_, if_pos hle, ?_⟩
  cases hwrite : expanded && decide ((dpf.li.getD 0 default).expansion.length = 2 ^ dpf.maxdepth) with
  | true =>
    rw [Bool.and_eq_true, decide_eq_true_eq] at hwrite
    have hlen := h.expansion.resolve_left fun hnone => by
      rw [hnone 0 h.li_pos, List.length_nil] at hwrite
      exact (Nat.two_pow_pos _).ne hwrite.2
    rw [if_pos hwrite.1]
    exact h.read_body (expansions_read hlen) rfl fun i hi => by
      simp [hi]
  | false =>
    have hread : (if expanded then dpf else dpf.unexpanded) = dpf.unexpanded := by
      cases expanded with
      | false => rfl
      | true =>
        rw [Bool.true_and, decide_eq_false_iff_not] at hwrite
        have hnone := h.expansion.resolve_right fun hall => hwrite (hall 0 h.li_pos)
        exact (unexpanded_eq hnone).symm
    rw [hread]
    exact @Made.read_body _ dpf h _ false _ _ (Reads.pure _) (List.length_map _) fun i hi => by
      simp [hi, LeafInfo.key]

end Made

/-- `operator<<` drops the expansion. -/
theorem Made.read_plain {dpf : RDPF WIDTH} (h : dpf.Made) :
    ∃ bytes, dpf.write = some bytes ∧ Reads RDPF.read bytes dpf.unexpanded :=
  h.read_write false

end RDPF

/-! ## What the constructor makes -/

/-- What the constructor's loop keeps true of the seed and of the leaf flags. -/
structure Flags (bits : Nat) (p : Player) (dpf : RDPF WIDTH) : Prop where
  seed : getLsb dpf.seed = p.bit
  leafCfbits : dpf.leafCfbits < 2 ^ bits

section Create

variable {prg : PRG WIDTH} {nthreads : Player → ℕ+} {target : Player → RegXS} {depth level : Nat}
  {incremental save : Bool} {triples : Nat → LevelTriples WIDTH} {s s' : Player → Construction WIDTH}

theorem createNodeStep_flags {bits : Nat} {p : Player} (h : Flags bits p (s p).dpf) :
    Flags bits p (RDPF.createNodeStep prg nthreads target depth triples level s p).dpf := by
  rw [RDPF.createNodeStep]
  split
  · exact ⟨h.seed, h.leafCfbits⟩
  · exact h

theorem createStep_flags {p : Player} (hlevel : level < depth)
    (h : Flags (if incremental then depth else 1) p (s p).dpf)
    (hstep : RDPF.createStep prg nthreads target depth incremental save triples level s = some s') :
    Flags (if incremental then depth else 1) p (s' p).dpf := by
  rw [RDPF.createStep] at hstep
  split at hstep
  next => cases hstep
  split at hstep
  next hleaf =>
    obtain ⟨leafLevel, -, rfl⟩ := Option.map_eq_some_iff.1 hstep
    have hnode := @createNodeStep_flags _ prg nthreads target depth level triples s _ _ h
    refine ⟨hnode.seed, Nat.or_lt_two_pow hnode.leafCfbits ?_⟩
    have hindex : depth - level - 1 < (if incremental then depth else 1) := by
      rcases hleaf with hinc | hlast
      · rw [if_pos hinc]
        omega
      · split <;> omega
    calc (leafLevel p).2.toNat <<< (depth - level - 1)
        = (leafLevel p).2.toNat * 2 ^ (depth - level - 1) := Nat.shiftLeft_eq _ _
      _ ≤ 1 * 2 ^ (depth - level - 1) := Nat.mul_le_mul_right _ (Bool.toNat_le _)
      _ = 2 ^ (depth - level - 1) := Nat.one_mul _
      _ < 2 ^ (if incremental then depth else 1) := Nat.pow_lt_pow_right Nat.one_lt_two hindex
  next => exact Option.some.inj hstep ▸ createNodeStep_flags h

end Create

/-- Both halves that the constructor makes are as `Made` says. -/
theorem create_made (prg : PRG WIDTH) (nthreads : Player → ℕ+) (seeds : Player → DPFnode)
    (target : Player → RegXS) {depth : Nat} (hpos : 1 ≤ depth) (hle : depth ≤ 30)
    (incremental save : Bool) (triples : Nat → LevelTriples WIDTH) :
    ∃ dpf, RDPF.create prg nthreads seeds target depth incremental save triples = some dpf ∧
      ∀ p, (dpf p).Made := by
  obtain ⟨s, hs, hinv, hflags⟩ := Loop.forRangeOpt_inv
    (fun level s => KeygenInv prg (reconstructTarget target) depth incremental save level s ∧
      ∀ p, Flags (if incremental then depth else 1) p (s p).dpf)
    (Nat.zero_le depth)
    ⟨KeygenInv.init prg seeds (reconstructTarget target) depth incremental save,
      fun p => ⟨getLsb_setLsb _ _, Nat.two_pow_pos _⟩⟩
    fun level s _ hlevel h => by
      obtain ⟨s', hs', hinv⟩ := h.1.step nthreads triples hlevel hle
      exact ⟨s', hs', hinv, fun p => createStep_flags hlevel (h.2 p) hs'⟩
  refine ⟨fun p => (s p).dpf, by rw [RDPF.create, hs, Option.map_some], fun p => ?_⟩
  have hshape := hinv.shape p
  have hlen := hshape.li_length
  have hmax := hshape.maxdepth
  refine ⟨hmax.symm ▸ hpos, hmax.symm ▸ hle, hshape.curdepth.trans hmax.symm,
    hshape.whichhalf.trans (hflags p).seed.symm, ?_, ?_, ?_, ?_, ?_⟩
  · rw [hshape.cw_length, hmax]
    omega
  · rw [hmax]
    exact Nat.lt_pow_two_of_testBit _ fun i hi => hshape.cfbits i (by omega)
  · rw [hlen, hmax]
    cases incremental
    · exact .inl rfl
    · exact .inr rfl
  · rw [hlen]
    exact (hflags p).leafCfbits
  · have hexp : ∀ i < (s p).dpf.li.length, ((s p).dpf.li.getD i default).expansion =
        if save then (List.range (2 ^ (depth - i))).map ((s p).dpf.leafAt prg (depth - i)) else [] := by
      intro i hi
      rw [hlen] at hi
      have hlevel : i < depth ∧ (incremental = true ∨ depth - i = depth) := by
        cases incremental
        · have hi : i < 1 := hi
          exact ⟨by omega, .inr (by omega)⟩
        · exact ⟨hi, .inl rfl⟩
      have hok := (hinv.leaves (depth - i) (by omega) (Nat.sub_le _ _) hlevel.2).expansion p
      rwa [hmax, Nat.sub_sub_self hlevel.1.le] at hok
    cases save
    · exact .inl hexp
    · refine .inr fun i hi => ?_
      rw [hexp i hi, hmax]
      simp

/-! ## Triples and pairs of RDPFs, and CDPFs -/

/-- Several RDPFs, one after the other, with their expansions. -/
def RDPFTuple.write {n : Nat} (rdpf : RDPFTuple n WIDTH) : Option (List UInt8) :=
  writeAll (fun dpf => dpf.writeMaybeExpanded true) (List.ofFn rdpf)

theorem RDPFTuple.read_write {n : Nat} {rdpf : RDPFTuple n WIDTH} (h : ∀ k, (rdpf k).Made) :
    ∃ bytes, rdpf.write = some bytes ∧ Reads (readArray RDPF.read n) bytes rdpf :=
  Reads.writeArray fun k => (h k).read_write true

/-- `operator<<` of an `RDPFTriple`. -/
def RDPFTriple.write (dt : RDPFTriple WIDTH) : Option (List UInt8) := do
  let dpfs ← dt.dpf.write
  return dpfs ++ (putAS (bitBytes dt.depth) dt.asTarget ++ putXS (bitBytes dt.depth) dt.xsTarget)

/-- `operator>>` of an `RDPFTriple`. -/
def RDPFTriple.read : Reader (RDPFTriple WIDTH) := do
  let dpf ← readArray RDPF.read 3
  let depth := (dpf 0).curdepth
  let asTarget ← getAS (bitBytes depth)
  let xsTarget ← getXS (bitBytes depth)
  return { asTarget, xsTarget, dpf }

/-- The RDPFs of a triple are made, and the shares of the target have no more bits than it. -/
structure RDPFTriple.Made (dt : RDPFTriple WIDTH) : Prop where
  dpf : ∀ k, (dt.dpf k).Made
  asTarget : dt.asTarget.ashare.toNat < 2 ^ dt.depth
  xsTarget : dt.xsTarget.xshare.toNat < 2 ^ dt.depth

theorem RDPFTriple.read_write {dt : RDPFTriple WIDTH} (h : dt.Made) :
    ∃ bytes, dt.write = some bytes ∧ Reads RDPFTriple.read bytes dt := by
  obtain ⟨bytes, hwrite, hread⟩ := RDPFTuple.read_write h.dpf
  refine ⟨_, by rw [RDPFTriple.write, hwrite]; rfl, hread.bind ?_⟩
  exact (getAS_reads (lt_bitBytes h.asTarget)).bind ((getXS_reads (lt_bitBytes h.xsTarget)).map _)

namespace CDPF

/-- `operator<<`. -/
def write (dpf : CDPF) : List UInt8 :=
  putNode dpf.seed ++ ((List.range depth).flatMap (fun i => putNode (dpf.cw.getD i 0)) ++
    (leBytes (bitBytes depth) dpf.cfbits ++ (putNode dpf.leafCwr ++
      (putAS 8 dpf.asTarget ++ putXS 8 dpf.xsTarget))))

/-- `operator>>`. -/
def read : Reader CDPF := do
  let seed ← getNode
  let cw ← readList getNode depth
  let cfbits ← takeLe (bitBytes depth)
  let leafCwr ← getNode
  let asTarget ← getAS 8
  let xsTarget ← getXS 8
  return { seed, whichhalf := getLsb seed, cw, cfbits, asTarget, xsTarget, leafCwr }

/-- A CDPF as `generate` makes it. -/
structure Made (dpf : CDPF) : Prop where
  whichhalf : dpf.whichhalf = getLsb dpf.seed
  cw : dpf.cw.length = depth
  cfbits : dpf.cfbits < 2 ^ 64

theorem read_write {dpf : CDPF} (h : dpf.Made) : Reads read dpf.write dpf := by
  have hcw := Reads.readList 0 fun (x : DPFnode) (_ : x ∈ dpf.cw) => getNode_reads x
  have hcfbits : dpf.cfbits < 256 ^ bitBytes depth := h.cfbits
  have hval : CDPF.mk ⟨dpf.seed, getLsb dpf.seed, dpf.cw, dpf.cfbits⟩ dpf.asTarget dpf.xsTarget
      dpf.leafCwr = dpf := by
    rw [← h.whichhalf]
  rw [h.cw] at hcw
  rw [write, ← hval]
  refine (getNode_reads dpf.seed).bind (hcw.bind ((Reads.takeLe hcfbits).bind
    ((getNode_reads dpf.leafCwr).bind ((getAS_reads (toNat_lt_bytes _)).bind ?_))))
  exact (getXS_reads (toNat_lt_bytes _)).map _

end CDPF

/-! ## Mixed files -/

/-- An object of a file. -/
inductive Item where
  | rdpf (WIDTH : Nat) (dpf : RDPF WIDTH)
  | triple (WIDTH : Nat) (dt : RDPFTriple WIDTH)
  | pair (WIDTH : Nat) (dp : RDPFPair WIDTH)
  | cdpf (dpf : CDPF)

/-- The type of the next object, which the reader of a file knows. -/
inductive Kind where
  | rdpf (WIDTH : Nat)
  | triple (WIDTH : Nat)
  | pair (WIDTH : Nat)
  | cdpf

/-- `operator>>` at a type. -/
def Kind.read : Kind → Reader Item
  | .rdpf WIDTH => do
    let dpf ← RDPF.read
    return .rdpf WIDTH dpf
  | .triple WIDTH => do
    let dt ← RDPFTriple.read
    return .triple WIDTH dt
  | .pair WIDTH => do
    let dp ← readArray RDPF.read 2
    return .pair WIDTH dp
  | .cdpf => do
    let dpf ← CDPF.read
    return .cdpf dpf

namespace Item

def kind : Item → Kind
  | .rdpf WIDTH _ => .rdpf WIDTH
  | .triple WIDTH _ => .triple WIDTH
  | .pair WIDTH _ => .pair WIDTH
  | .cdpf _ => .cdpf

/-- The object written, a single RDPF with `write_maybe_expanded`. -/
def write (expanded : Bool) : Item → Option (List UInt8)
  | .rdpf _ dpf => dpf.writeMaybeExpanded expanded
  | .triple _ dt => dt.write
  | .pair _ dp => RDPFTuple.write dp
  | .cdpf dpf => some dpf.write

/-- What is written of the object. -/
def stored (expanded : Bool) : Item → Item
  | .rdpf WIDTH dpf => .rdpf WIDTH (if expanded then dpf else dpf.unexpanded)
  | item => item

/-- An object as its constructor makes it. -/
def Made : Item → Prop
  | .rdpf _ dpf => dpf.Made
  | .triple _ dt => dt.Made
  | .pair _ dp => ∀ k, (dp k).Made
  | .cdpf dpf => dpf.Made

theorem read_write {item : Item} (h : item.Made) (expanded : Bool) :
    ∃ bytes, item.write expanded = some bytes ∧ Reads item.kind.read bytes (item.stored expanded) := by
  cases item with
  | rdpf WIDTH dpf =>
    obtain ⟨bytes, hwrite, hread⟩ := RDPF.Made.read_write h expanded
    exact ⟨bytes, hwrite, hread.map (Item.rdpf WIDTH)⟩
  | triple WIDTH dt =>
    obtain ⟨bytes, hwrite, hread⟩ := RDPFTriple.read_write h
    exact ⟨bytes, hwrite, hread.map (Item.triple WIDTH)⟩
  | pair WIDTH dp =>
    obtain ⟨bytes, hwrite, hread⟩ := RDPFTuple.read_write h
    exact ⟨bytes, hwrite, hread.map (Item.pair WIDTH)⟩
  | cdpf dpf => exact ⟨dpf.write, rfl, (CDPF.read_write h).map Item.cdpf⟩

end Item

/-- **The file format**: a list of objects, each written with or without its expansion, is read back in
order, and exactly the bytes written are consumed. -/
theorem file_round_trip {items : List (Item × Bool)} (h : ∀ x ∈ items, x.1.Made) :
    ∃ bytes, writeAll (fun x : Item × Bool => x.1.write x.2) items = some bytes ∧
      ∀ rest, readAll Kind.read (items.map fun x => x.1.kind) (bytes ++ rest) =
        some (items.map fun x => x.1.stored x.2, rest) := by
  obtain ⟨bytes, hwrite, hread⟩ := Reads.writeAll fun x hx => Item.read_write (h x hx) x.2
  exact ⟨bytes, hwrite, by rwa [readAll_map]⟩

/-- An expanded incremental RDPF of depth 3. -/
def smallRdpf (WIDTH : Nat) (whichhalf : Bool) : RDPF WIDTH where
  seed := setLsb 0x35 whichhalf
  whichhalf
  cw := [0x21, 0x40]
  cfbits := 2
  maxdepth := 3
  curdepth := 3
  li := [3, 2, 1].map fun level => ⟨fun _ => 6, 9, fun _ => ⟨12⟩, fun _ => ⟨15⟩,
    (List.range (2 ^ level)).map fun i _ => BitVec.ofNat 128 (100 * i + level)⟩
  leafCfbits := 5

theorem smallRdpf_made (WIDTH : Nat) (whichhalf : Bool) : (smallRdpf WIDTH whichhalf).Made where
  pos := show 1 ≤ 3 by decide
  le := show 3 ≤ 30 by decide
  curdepth := rfl
  whichhalf := (getLsb_setLsb _ _).symm
  cw := rfl
  cfbits := show 2 < 2 ^ 2 by decide
  li := .inr rfl
  leafCfbits := show 5 < 2 ^ 3 by decide
  expansion := by
    refine .inr fun i hi => ?_
    have hi : i < 3 := hi
    obtain rfl | rfl | rfl : i = 0 ∨ i = 1 ∨ i = 2 := by omega
    all_goals rfl

def smallTriple : RDPFTriple 1 := ⟨⟨5⟩, ⟨6⟩, fun _ => smallRdpf 1 true⟩

def smallCdpf : CDPF := ⟨⟨0x35, true, List.replicate CDPF.depth 0x2b, 0x1234⟩, ⟨7⟩, ⟨8⟩, 0x99⟩

/-- An RDPF with its expansion and without, a triple, a pair and a CDPF. -/
theorem file_round_trip_mixed :
    ∃ bytes, writeAll (fun x : Item × Bool => x.1.write x.2)
        [(.rdpf 2 (smallRdpf 2 true), true), (.rdpf 2 (smallRdpf 2 true), false), (.triple 1 smallTriple, true),
          (.pair 1 ![smallRdpf 1 false, smallRdpf 1 true], true), (.cdpf smallCdpf, true)] = some bytes ∧
      ∀ rest, readAll Kind.read [.rdpf 2, .rdpf 2, .triple 1, .pair 1, .cdpf] (bytes ++ rest) =
        some ([.rdpf 2 (smallRdpf 2 true), .rdpf 2 (smallRdpf 2 true).unexpanded, .triple 1 smallTriple,
          .pair 1 ![smallRdpf 1 false, smallRdpf 1 true], .cdpf smallCdpf], rest) := by
  refine file_round_trip fun x hx => ?_
  simp only [List.mem_cons, List.not_mem_nil, or_false] at hx
  rcases hx with rfl | rfl | rfl | rfl | rfl
  · exact smallRdpf_made 2 true
  · exact smallRdpf_made 2 true
  · exact ⟨fun _ => smallRdpf_made 1 true, show 5 < 2 ^ 3 by decide, show 6 < 2 ^ 3 by decide⟩
  · exact Fin.forall_fin_two.2 ⟨smallRdpf_made 1 false, smallRdpf_made 1 true⟩
  · exact ⟨rfl, List.length_replicate, show 0x1234 < 2 ^ 64 by decide⟩

end Prac
