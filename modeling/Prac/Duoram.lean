import Prac.StreamEval
import Prac.Shapes

/-!
# Duoram: oblivious memory (`duoram.hpp`, `duoram.tcc`)

* `Register` — the two types of a memory cell, `RegAS` and `RegXS`; `SharedIndex` — the two types of
  a secret index.  Both are templated over in the source.
* `Duoram` — what P0, P1 and the server hold of one memory.
* `OblivIndex` — a shared index with the DPF keys of the three parties.
* `MemRefS.read`, `MemRefS.oramUpdate` — the oblivious read and update, run by the three parties.
* `MemRefExpl`, `Shape.init`, `Shape.explicitonly` — accesses at a public index, initialization and
  explicit-only mode.

A random value that a party draws is an argument.
-/

namespace Prac

open Loop

/-! ## DPF keys of one access -/

instance (priority := 2000) neZero_three : NeZero 3 := ⟨three_ne_zero⟩

/-- `RDPFTriple`: a computational party's three RDPFs, and its shares of their common target. -/
structure RDPFTriple (WIDTH : Nat) where
  asTarget : RegAS
  xsTarget : RegXS
  dpf : RDPFTuple 3 WIDTH

/-- `RDPFPair`: the server's two RDPFs. -/
abbrev RDPFPair (WIDTH : Nat) := RDPFTuple 2 WIDTH

namespace RDPFTriple

variable {WIDTH : Nat}

/-- `RDPFTriple::depth`. -/
def depth (dt : RDPFTriple WIDTH) : Nat := dt.dpf.depth

/-- The entry of `li` that the triple uses, `maxdepth - curdepth` of the first RDPF. -/
def liIndex (dt : RDPFTriple WIDTH) : Nat := (dt.dpf 0).maxdepth - (dt.dpf 0).curdepth

/-- `RDPF2of3`: the two RDPFs of a triple that a read needs. -/
def twoOf3 (dt : RDPFTriple WIDTH) (which0 which1 : Fin 3) : RDPFTuple 2 WIDTH :=
  ![dt.dpf which0, dt.dpf which1]

end RDPFTriple

/-- A leaf level's data without the stored expansion. -/
def LeafInfo.key {WIDTH : Nat} (info : LeafInfo WIDTH) : LeafInfo WIDTH := { info with expansion := [] }

/-- A DPF as another party holds it: the same key, with stored expansions of its own or none. -/
structure RDPF.IsCopy {WIDTH : Nat} (d d' : RDPF WIDTH) : Prop where
  toDPF : d.toDPF = d'.toDPF
  maxdepth : d.maxdepth = d'.maxdepth
  curdepth : d.curdepth = d'.curdepth
  leafCfbits : d.leafCfbits = d'.leafCfbits
  li : ∀ k, (d.li.getD k default).key = (d'.li.getD k default).key

/-! ## Cell types and index types -/

/-- At width 1 and 2 `scaled_as` stays inside the leaf and the result. -/
theorem RDPF.scaledAs_eq {WIDTH : Nat} (hwidth : WIDTH = 1 ∨ WIDTH = 2) (dpf : RDPF WIDTH)
    (leaf : LeafNode WIDTH) : dpf.scaledAs leaf =
      some fun j => ⟨if dpf.whichhalf then -scaledWord leaf j else scaledWord leaf j⟩ := by
  rcases hwidth with rfl | rfl
  · have hrun : dpf.scaledAs leaf = some (Function.update (0 : Fin 1 → RegAS) 0
        ⟨if dpf.whichhalf then -highWord (leaf 0) else highWord (leaf 0)⟩) := rfl
    rw [hrun]
    refine congrArg some (funext fun j => ?_)
    obtain rfl : j = 0 := Subsingleton.elim _ _
    exact Function.update_self _ _ _
  · have hrun : dpf.scaledAs leaf = some (Function.update (Function.update (0 : Fin 2 → RegAS) 0
        ⟨if dpf.whichhalf then -highWord (leaf 0) else highWord (leaf 0)⟩) 1
        ⟨if dpf.whichhalf then -lowWord (leaf 1) else lowWord (leaf 1)⟩) := rfl
    rw [hrun]
    refine congrArg some (funext fun j => ?_)
    refine Fin.cases ?_ (fun j => ?_) j
    · exact Function.update_of_ne (by decide) _ _
    · obtain rfl : j = 0 := Subsingleton.elim _ _
      exact Function.update_self _ _ _

theorem RDPF.IsCopy.leafCw {WIDTH : Nat} {d d' : RDPF WIDTH} (h : d.IsCopy d') (k : Nat) :
    (d.li.getD k default).leafCw = (d'.li.getD k default).leafCw := by
  have hkey := congrArg LeafInfo.leafCw (h.li k)
  exact hkey

theorem RDPF.IsCopy.unitSumInverse {WIDTH : Nat} {d d' : RDPF WIDTH} (h : d.IsCopy d') (k : Nat) :
    (d.li.getD k default).unitSumInverse = (d'.li.getD k default).unitSumInverse := by
  have hkey := congrArg LeafInfo.unitSumInverse (h.li k)
  exact hkey

theorem RDPF.IsCopy.unitAs {WIDTH : Nat} {d d' : RDPF WIDTH} (h : d.IsCopy d') (leaf : LeafNode WIDTH) :
    d.unitAs leaf = d'.unitAs leaf := by
  simp only [RDPF.unitAs, h.toDPF, h.maxdepth, h.curdepth, h.unitSumInverse]

theorem RDPF.IsCopy.scaledAs {WIDTH : Nat} {d d' : RDPF WIDTH} (h : d.IsCopy d')
    (leaf : LeafNode WIDTH) : d.scaledAs leaf = d'.scaledAs leaf := by
  simp only [RDPF.scaledAs, h.toDPF]

/-- The operations on a cell type that the memory accesses are templated over. -/
class Register (T : Type) extends CommRing T where
  set : Value → T
  combine : T → T → Value
  mulValue : T → Value → T
  unit : {WIDTH : Nat} → RDPF WIDTH → LeafNode WIDTH → T
  scaled : {WIDTH : Nat} → RDPF WIDTH → LeafNode WIDTH → Option (Fin WIDTH → T)
  scaledValue : {WIDTH : Nat} → LeafInfo WIDTH → Fin WIDTH → T
  mulValue_combine : ∀ u a b : T, mulValue u (combine a b) = u * (a + b)
  combine_comm : ∀ a b : T, combine a b = combine b a
  set_zero : set 0 = 0
  unit_copy : ∀ {WIDTH : Nat} {d d' : RDPF WIDTH}, d.IsCopy d' → ∀ leaf, unit d leaf = unit d' leaf
  scaled_copy : ∀ {WIDTH : Nat} {d d' : RDPF WIDTH}, d.IsCopy d' →
    ∀ leaf, scaled d leaf = scaled d' leaf
  scaled_isSome : ∀ {WIDTH : Nat}, WIDTH = 1 ∨ WIDTH = 2 →
    ∀ (d : RDPF WIDTH) leaf, ∃ s, scaled d leaf = some s

instance : Register RegAS where
  set v := ⟨v⟩
  combine a b := a.combine b
  mulValue a v := ⟨a.ashare * v⟩
  unit dpf leaf := dpf.unitAs leaf
  scaled dpf leaf := dpf.scaledAs leaf
  scaledValue info := info.scaledSum
  mulValue_combine u a b := by
    ext1
    show u.ashare * ((a.ashare + b.ashare) &&& maskBits 64) = u.ashare * (a.ashare + b.ashare)
    rw [and_maskBits_64]
  combine_comm a b := by
    unfold RegAS.combine
    rw [BitVec.add_comm]
  set_zero := rfl
  unit_copy h leaf := h.unitAs leaf
  scaled_copy h leaf := h.scaledAs leaf
  scaled_isSome hwidth d leaf := ⟨_, d.scaledAs_eq hwidth leaf⟩

instance : Register RegXS where
  set v := ⟨v⟩
  combine a b := a.combine b
  mulValue a v := ⟨a.xshare &&& v⟩
  unit _ leaf := RegXS.ofBS (RDPF.unitBs leaf)
  scaled _ leaf := some (RDPF.scaledXs leaf)
  scaledValue info := info.scaledXor
  mulValue_combine u a b := by
    ext1
    show u.xshare &&& ((a.xshare ^^^ b.xshare) &&& maskBits 64) =
      u.xshare &&& (a.xshare ^^^ b.xshare)
    rw [and_maskBits_64]
  combine_comm a b := by
    unfold RegXS.combine
    rw [BitVec.xor_comm]
  set_zero := rfl
  unit_copy _ _ := rfl
  scaled_copy _ _ := rfl
  scaled_isSome _ _ leaf := ⟨_, rfl⟩

/-- The operations on an index type that the memory accesses are templated over.  `ifRegAS` and
`ifRegXS` say whether the opened offset shifts the DPF or is XORed into its index; either way the
evaluation that meets the target `t` is the one at the index `x`. -/
class SharedIndex (U : Type) extends Sub U where
  getTarget : {WIDTH : Nat} → RDPFTriple WIDTH → U
  combine : U → U → Nat → Value
  ifRegAS : Nat → Nat
  ifRegXS : Nat → Nat
  combine_comm : ∀ a b nbits, combine a b nbits = combine b a nbits
  hit : ∀ (t x : Player → U) (depth i : Nat), depth ≤ 64 → i < 2 ^ depth →
    (((ifRegAS (combine (t .p0 - x .p0) (t .p1 - x .p1) depth).toNat + i) % 2 ^ depth) ^^^
        (ifRegXS (combine (t .p0 - x .p0) (t .p1 - x .p1) depth).toNat % 2 ^ depth) =
      (combine (t .p0) (t .p1) depth).toNat ↔ i = (combine (x .p0) (x .p1) depth).toNat)

instance : SharedIndex RegAS where
  getTarget dt := dt.asTarget
  combine a b nbits := a.combine b nbits
  ifRegAS val := val
  ifRegXS _ := 0
  combine_comm a b nbits := by
    unfold RegAS.combine
    rw [BitVec.add_comm]
  hit t x depth i hdepth hi := by
    simp only [RegAS.combine, toNat_and_maskBits hdepth, RegAS.ashare_sub]
    have hoff : ((t .p0).ashare - (x .p0).ashare + ((t .p1).ashare - (x .p1).ashare)).setWidth depth =
        ((t .p0).ashare + (t .p1).ashare).setWidth depth -
          ((x .p0).ashare + (x .p1).ashare).setWidth depth := by
      rw [sub_add_sub_comm, sub_eq_add_neg, BitVec.setWidth_add _ _ hdepth,
        BitVec.setWidth_neg_of_le hdepth, sub_eq_add_neg]
    rw [hoff, Nat.zero_mod, Nat.xor_zero]
    generalize ((t .p0).ashare + (t .p1).ashare).setWidth depth = T
    generalize ((x .p0).ashare + (x .p1).ashare).setWidth depth = X
    obtain ⟨I, rfl⟩ : ∃ I : BitVec depth, I.toNat = i :=
      ⟨BitVec.ofNat depth i, by rw [BitVec.toNat_ofNat, Nat.mod_eq_of_lt hi]⟩
    rw [← BitVec.toNat_add, BitVec.toNat_inj, BitVec.toNat_inj, sub_add_eq_add_sub, add_sub_assoc,
      add_eq_left, sub_eq_zero]

instance : SharedIndex RegXS where
  getTarget dt := ⟨dt.xsTarget.xshare >>> dt.liIndex⟩
  combine a b nbits := a.combine b nbits
  ifRegAS _ := 0
  ifRegXS val := val
  combine_comm a b nbits := by
    unfold RegXS.combine
    rw [BitVec.xor_comm]
  hit t x depth i hdepth hi := by
    simp only [RegXS.combine, toNat_and_maskBits hdepth, RegXS.xshare_sub]
    have hoff : ((t .p0).xshare ^^^ (x .p0).xshare ^^^ ((t .p1).xshare ^^^ (x .p1).xshare)).setWidth
        depth = ((t .p0).xshare ^^^ (t .p1).xshare).setWidth depth ^^^
          ((x .p0).xshare ^^^ (x .p1).xshare).setWidth depth := by
      rw [Xor.xor_xor_xor_comm, BitVec.setWidth_xor]
    rw [hoff]
    generalize ((t .p0).xshare ^^^ (t .p1).xshare).setWidth depth = T
    generalize ((x .p0).xshare ^^^ (x .p1).xshare).setWidth depth = X
    obtain ⟨I, rfl⟩ : ∃ I : BitVec depth, I.toNat = i :=
      ⟨BitVec.ofNat depth i, by rw [BitVec.toNat_ofNat, Nat.mod_eq_of_lt hi]⟩
    rw [Nat.zero_add, Nat.mod_eq_of_lt hi, Nat.mod_eq_of_lt (BitVec.isLt _), ← BitVec.toNat_xor,
      BitVec.toNat_inj, BitVec.toNat_inj, Xor.xor_left_comm]
    constructor
    · intro h
      have hzero : I ^^^ X = 0 := by
        rw [← xor_cancel_left T (I ^^^ X), h]
        exact LawfulXor.xor_self T
      exact xor_eq_zero_iff.mp hzero
    · rintro rfl
      rw [LawfulXor.xor_self I]
      exact xor_zero T

/-- `OblivIndex`, with what the three parties hold of it.  They count `next_windex` in step. -/
structure OblivIndex (U : Type) (WIDTH : Nat) where
  dt : Player → RDPFTriple WIDTH
  dp : RDPFPair WIDTH
  nextWindex : Nat
  idx : Player → U

/-- `OblivIndex::windex`: the next window index, which must be below the width. -/
def OblivIndex.windex {U : Type} {WIDTH : Nat} (ox : OblivIndex U WIDTH) :
    Option (Fin WIDTH × OblivIndex U WIDTH) :=
  if h : ox.nextWindex < WIDTH then
    some (⟨ox.nextWindex, h⟩, { ox with nextWindex := ox.nextWindex + 1 })
  else none

/-! ## The memory -/

/-- What a computational party holds: its database share, its blind and the peer's blinded share. -/
structure CompDuoram (T : Type) where
  database : Nat → T
  blind : Nat → T
  peerBlindedDb : Nat → T

/-- What the server holds: a copy of each blind. -/
structure ServerDuoram (T : Type) where
  p0Blind : Nat → T
  p1Blind : Nat → T

/-- `Duoram`. -/
structure Duoram (T : Type) where
  comp : Player → CompDuoram T
  server : ServerDuoram T

variable {T U : Type} [Register T] {oramSize WIDTH : Nat}

/-- The constructor: every vector is filled with the default value. -/
def Duoram.create : Duoram T := ⟨fun _ => ⟨0, 0, 0⟩, ⟨0, 0⟩⟩

namespace Shape

/-- `get_comp` as values: database share, blind and the peer's blinded share.  The constant of a
`Pad` is a share of P1, which P0 holds as the peer's. -/
def getComp (shape : Shape oramSize) (p : Player) (m : CompDuoram T) (idx : Nat) : T × T × T :=
  match shape.cell idx with
  | .mem addr => (m.database addr, m.blind addr, m.peerBlindedDb addr)
  | .pad padval =>
    (Register.set (if p.bit then padval else 0), 0, Register.set (if p.bit then 0 else padval))

/-- `get_server` as values. -/
def getServer (shape : Shape oramSize) (m : ServerDuoram T) (idx : Nat) : T × T :=
  match shape.cell idx with
  | .mem addr => (m.p0Blind addr, m.p1Blind addr)
  | .pad _ => (0, 0)

/-- Write through the references of `get_comp`.  The cells of a `Pad` are its own and are no part of
the memory. -/
def modifyComp (shape : Shape oramSize) (idx : Nat) (f : T × T × T → T × T × T)
    (m : CompDuoram T) : CompDuoram T :=
  match shape.cell idx with
  | .mem addr =>
    let (DB, BL, PBD) := f (m.database addr, m.blind addr, m.peerBlindedDb addr)
    ⟨Function.update m.database addr DB, Function.update m.blind addr BL,
      Function.update m.peerBlindedDb addr PBD⟩
  | .pad _ => m

/-- Write through the references of `get_server`. -/
def modifyServer (shape : Shape oramSize) (idx : Nat) (f : T × T → T × T) (m : ServerDuoram T) :
    ServerDuoram T :=
  match shape.cell idx with
  | .mem addr =>
    let (BL0, BL1) := f (m.p0Blind addr, m.p1Blind addr)
    ⟨Function.update m.p0Blind addr BL0, Function.update m.p1Blind addr BL1⟩
  | .pad _ => m

/-- `Shape::init`: element `i` becomes `f(i)`, as a share of P1. -/
def init (shape : Shape oramSize) (f : Nat → T) (mem : Duoram T) : Duoram T where
  comp p := forRange 0 shape.size (fun i => shape.modifyComp i fun _ =>
    if p.bit then (f i, 0, 0) else (0, 0, f i)) (mem.comp p)
  server := forRange 0 shape.size (fun i => shape.modifyServer i fun _ => (0, 0)) mem.server

/-- The end of explicit-only mode: each party draws a new blind for every element of the shape, and
sends it to the server and its blinded share to the peer. -/
def reblind (shape : Shape oramSize) (blinds : Player → Nat → T) (mem : Duoram T) : Duoram T :=
  let sent p i := (shape.getComp p (mem.comp p) i).1 + blinds p i
  { comp := fun p =>
      let m := forRange 0 shape.size (fun i => shape.modifyComp i fun (DB, _, PBD) =>
        (DB, blinds p i, PBD)) (mem.comp p)
      forRange 0 shape.size (fun i => shape.modifyComp i fun (DB, BL, _) =>
        (DB, BL, sent p.peer i)) m
    server := forRange 0 shape.size (fun i => shape.modifyServer i fun _ =>
      (blinds .p0 i, blinds .p1 i)) mem.server }

/-- `Shape::explicitonly`, on the memory and the shape's `explicitmode`. -/
def explicitonly (shape : Shape oramSize) (enable : Bool) (blinds : Player → Nat → T)
    (st : Duoram T × Bool) : Duoram T × Bool :=
  if enable then (st.1, true)
  else if st.2 then (shape.reblind blinds st.1, false)
  else st

end Shape

/-! ## Oblivious accesses -/

namespace MemRefS

variable [SharedIndex U]

/-- The index offset that player `p` sends to its peer and to the server. -/
def indoffset (ox : OblivIndex U WIDTH) (p : Player) : U :=
  SharedIndex.getTarget (ox.dt p) - ox.idx p

/-- The total offset, opened from one's own offset and the other's.  Only the bytes that hold the low
`depth` bits are sent; `combine` reads no others. -/
def indshift (depth : Nat) (own other : U) : Nat := (SharedIndex.combine own other depth).toNat

/-- What a computational party evaluates in a read: the products with the first DPF, which both hold
a half of, and with the one that the peer has not given to the server. -/
def readComp (U : Type) [SharedIndex U] (prg : PRG WIDTH) (nthreads : ℕ+) (shape : Shape oramSize)
    (p : Player) (dt : RDPFTriple WIDTH) (indshift : Nat) (m : CompDuoram T) : T :=
  let dp := dt.twoOf3 0 (if p.bit then 1 else 2)
  (ParallelEval.reduce prg dp (SharedIndex.ifRegAS U indshift) (SharedIndex.ifRegXS U indshift)
    shape.size nthreads 0 (fun i leaf (s : Unit) =>
      let V0 : T := Register.unit (dp 0) (leaf 0)
      let V1 : T := Register.unit (dp 1) (leaf 1)
      let (DB, BL, PBD) := shape.getComp p m i
      ((DB + PBD) * V0 - BL * (V1 - V0), s)) ()).1

/-- The cancellation terms that the server evaluates in a read. -/
def readServer (U : Type) [SharedIndex U] (prg : PRG WIDTH) (nthreads : ℕ+) (shape : Shape oramSize)
    (dp : RDPFPair WIDTH) (indshift : Nat) (m : ServerDuoram T) : T × T :=
  (ParallelEval.reduce prg dp (SharedIndex.ifRegAS U indshift) (SharedIndex.ifRegXS U indshift)
    shape.size nthreads 0 (fun i leaf (s : Unit) =>
      let V0 : T := Register.unit (dp 0) (leaf 0)
      let V1 : T := Register.unit (dp 1) (leaf 1)
      let (BL0, BL1) := shape.getServer m i
      ((-(BL0 * V1), -(BL1 * V0)), s)) ()).1

/-- `MemRefS::operator FT`: the shares of the value that P0 and P1 read, and the memory and
explicit-only mode that the read leaves.  `rho` is the server's blinding factor. -/
def read (prg : PRG WIDTH) (nthreads : Player → ℕ+) (serverThreads : ℕ+) (shape : Shape oramSize)
    (ox : OblivIndex U WIDTH) (blinds : Player → Nat → T) (rho : T) (st : Duoram T × Bool) :
    (Player → T) × (Duoram T × Bool) :=
  let st := shape.explicitonly false blinds st
  let comp p := readComp U prg (nthreads p) shape p (ox.dt p)
    (indshift (ox.dt p).depth (indoffset ox p) (indoffset ox p.peer)) (st.1.comp p)
  let gamma := readServer U prg serverThreads shape ox.dp
    (indshift ox.dp.depth (indoffset ox .p0) (indoffset ox .p1)) st.1.server
  (fun p => comp p + if p.bit then gamma.2 - rho else gamma.1 + rho, st)

/-- The message offsets that a player sends for an update of `M` at a window index: in each of the
three entries the window's value is `M`, the others are 0, and the scaled values are taken off. -/
def moffset (scaledVal : Fin 3 → Fin WIDTH → T) (windex : Fin WIDTH) (M : T) :
    Fin 3 → Fin WIDTH → T :=
  let MW : Fin WIDTH → T := Function.update 0 windex M
  fun k => MW - scaledVal k

theorem moffset_self (scaledVal : Fin 3 → Fin WIDTH → T) (windex : Fin WIDTH) (M : T) (k : Fin 3) :
    moffset scaledVal windex M k windex = M - scaledVal k windex := by
  simp [moffset]

/-- `scaled_value` of a triple. -/
def scaledVal (dt : RDPFTriple WIDTH) : Fin 3 → Fin WIDTH → T :=
  fun k => Register.scaledValue ((dt.dpf k).li.getD dt.liIndex default)

/-- What a computational party does in an update: the DPFs are evaluated and added to its three
vectors.  The server can reproduce the change of the blind. -/
def updateComp (U : Type) [SharedIndex U] (prg : PRG WIDTH) (nthreads : ℕ+) (shape : Shape oramSize)
    (p : Player) (dt : RDPFTriple WIDTH) (windex : Fin WIDTH) (indshift : Nat)
    (Mshift : Fin 3 → Fin WIDTH → Value) (m : CompDuoram T) : Option (CompDuoram T) :=
  (ParallelEval.reduce prg dt.dpf (SharedIndex.ifRegAS U indshift) (SharedIndex.ifRegXS U indshift)
    shape.size nthreads (0 : Nat) (fun i leaf m =>
      (0, do
        let m ← m
        let scaled0 : Fin WIDTH → T ← Register.scaled (dt.dpf 0) (leaf 0)
        let scaled1 : Fin WIDTH → T ← Register.scaled (dt.dpf 1) (leaf 1)
        let scaled2 : Fin WIDTH → T ← Register.scaled (dt.dpf 2) (leaf 2)
        let V (k : Fin 3) (scaled : Fin WIDTH → T) : Fin WIDTH → T := fun w =>
          scaled w + Register.mulValue (Register.unit (dt.dpf k) (leaf k)) (Mshift k w)
        let V0 := V 0 scaled0
        let V1 := V 1 scaled1
        let V2 := V 2 scaled2
        some (shape.modifyComp i (fun (DB, BL, PBD) =>
          if p.bit then
            (DB + V0 windex, BL - V2 windex, PBD + (V1 windex - V0 windex))
          else
            (DB + V0 windex, BL - V1 windex, PBD + (V2 windex - V0 windex))) m))) (some m)).2

/-- What the server does in an update. -/
def updateServer (U : Type) [SharedIndex U] (prg : PRG WIDTH) (nthreads : ℕ+)
    (shape : Shape oramSize) (dp : RDPFPair WIDTH) (windex : Fin WIDTH) (indshift : Nat)
    (Mshift : Fin 2 → Fin WIDTH → Value) (m : ServerDuoram T) : Option (ServerDuoram T) :=
  (ParallelEval.reduce prg dp (SharedIndex.ifRegAS U indshift) (SharedIndex.ifRegXS U indshift)
    shape.size nthreads (0 : Nat) (fun i leaf m =>
      (0, do
        let m ← m
        let scaled0 : Fin WIDTH → T ← Register.scaled (dp 0) (leaf 0)
        let scaled1 : Fin WIDTH → T ← Register.scaled (dp 1) (leaf 1)
        let V (k : Fin 2) (scaled : Fin WIDTH → T) : Fin WIDTH → T := fun w =>
          scaled w + Register.mulValue (Register.unit (dp k) (leaf k)) (Mshift k w)
        let V0 := V 0 scaled0
        let V1 := V 1 scaled1
        some (shape.modifyServer i (fun (BL0, BL1) =>
          (BL0 - V0 windex, BL1 - V1 windex)) m))) (some m)).2

/-- `MemRefS::oram_update`: the memory and explicit-only mode, and the index with its window index
used up. -/
def oramUpdate (prg : PRG WIDTH) (nthreads : Player → ℕ+) (serverThreads : ℕ+)
    (shape : Shape oramSize) (ox : OblivIndex U WIDTH) (M : Player → T)
    (blinds : Player → Nat → T) (st : Duoram T × Bool) :
    Option ((Duoram T × Bool) × OblivIndex U WIDTH) := do
  let st := shape.explicitonly false blinds st
  let (windex, ox') ← ox.windex
  let Moffset p := moffset (scaledVal (ox.dt p)) windex (M p)
  let Mshift p k w := Register.combine (Moffset p k w) (Moffset (Player.peer p) k w)
  let comp p := updateComp U prg (nthreads p) shape p (ox.dt p) windex
    (indshift (ox.dt p).depth (indoffset ox p) (indoffset ox p.peer)) (Mshift p) (st.1.comp p)
  let comp0 ← comp .p0
  let comp1 ← comp .p1
  -- the server is sent the second and third message offsets only
  let server ← updateServer U prg serverThreads shape ox.dp windex
    (indshift ox.dp.depth (indoffset ox .p0) (indoffset ox .p1))
    ![fun w => Register.combine (Moffset .p0 1 w) (Moffset .p1 1 w),
      fun w => Register.combine (Moffset .p0 2 w) (Moffset .p1 2 w)] st.1.server
  some ((⟨fun p => if p.bit then comp1 else comp0, server⟩, st.2), ox')

end MemRefS

/-! ## Explicit accesses -/

namespace MemRefExpl

/-- `MemRefExpl::operator FT`. -/
def read (shape : Shape oramSize) (idx : Nat) (mem : Duoram T) (p : Player) : T :=
  (shape.getComp p (mem.comp p) idx).1

/-- `MemRefExpl::operator+=`.  In explicit-only mode only the database shares change; otherwise each
party draws a blind and sends it to the server, and its blinded share to the peer. -/
def update (shape : Shape oramSize) (explicitmode : Bool) (idx : Nat) (M blind : Player → T)
    (mem : Duoram T) : Duoram T :=
  if explicitmode then
    { mem with comp := fun p =>
        shape.modifyComp idx (fun (DB, BL, PBD) => (DB + M p, BL, PBD)) (mem.comp p) }
  else
    { comp := fun p => shape.modifyComp idx (fun (DB, BL, PBD) =>
        (DB + M p, BL + blind p, PBD + (M p.peer + blind p.peer))) (mem.comp p)
      server := shape.modifyServer idx (fun (BL0, BL1) => (BL0 + blind .p0, BL1 + blind .p1))
        mem.server }

/-- `MemRefExpl::operator=`. -/
def write (shape : Shape oramSize) (explicitmode : Bool) (idx : Nat) (M blind : Player → T)
    (mem : Duoram T) : Duoram T :=
  let oldval := read shape idx mem
  update shape explicitmode idx (fun p => M p - oldval p) blind mem

end MemRefExpl

end Prac
