import Prac.Dpf
import Prac.Lib.Loop
import Mathlib.Data.PNat.Basic
import Mathlib.Data.Nat.Sqrt

/-!
# DPFs for oblivious random access (`rdpf.hpp`, `rdpf.tcc`)

* `RDPF` — a party's half of an RDPF, with `descendToLeaf`, `leaf`, `unitBs`, `unitAs`, `scaledXs` and
  `scaledAs`.
* `expandLevel`, `finalizeNonleafLayer`, `finalizeLeafLayer` — one level of the tree, split over
  any number of threads.
* `createNodeLevel`, `createLeafLevel` — `create_level` at its two node types, run by both
  parties together.
* `RDPF.create` — the constructor: the two halves that P0 and P1 obtain, or `none` if an allocation
  or the assertion on the low sum fails.

Level arrays are functions of the index.
-/

namespace Prac

open Loop

variable {WIDTH : Nat}

/-- `inverse_value_t`. -/
def inverseValueT (x : Value) : Value := forRange 1 63 (fun _ xe => xe * xe * x) x

/-- The 64-bit word of a leaf that holds scaled value `j`: the high word of entry 0, then the low
and high words of the following entries in turn. -/
def scaledWord (leaf : LeafNode WIDTH) (j : Fin WIDTH) : Value :=
  let node := leaf ⟨(j.val + 1) / 2, by unfold LWIDTH; omega⟩
  if j.val % 2 = 0 then highWord node else lowWord node

/-- `LeafInfo`. -/
structure LeafInfo (WIDTH : Nat) where
  leafCw : LeafNode WIDTH
  unitSumInverse : Value
  scaledSum : Fin WIDTH → RegAS
  scaledXor : Fin WIDTH → RegXS
  expansion : List (LeafNode WIDTH)

instance : Inhabited (LeafInfo WIDTH) := ⟨⟨0, 0, fun _ => 0, fun _ => 0, []⟩⟩

/-- `RDPF`. -/
structure RDPF (WIDTH : Nat) extends DPF where
  maxdepth : Nat
  curdepth : Nat
  li : List (LeafInfo WIDTH)
  leafCfbits : Nat

namespace RDPF

/-- `RDPF::depth(newdepth)`: 0 means the maximum depth. -/
def setDepth (dpf : RDPF WIDTH) (newdepth : Nat) : RDPF WIDTH :=
  { dpf with curdepth := if 0 < newdepth ∧ newdepth < dpf.maxdepth then newdepth else dpf.maxdepth }

/-- `RDPF::descend_to_leaf`. -/
def descendToLeaf (prg : PRG WIDTH) (dpf : RDPF WIDTH) (parent : DPFnode) (parentdepth : Nat)
    (whichchild : Bool) : LeafNode WIDTH :=
  let flag := getLsb parent
  let prgout := prg.leaf parent whichchild
  if flag then
    let CW := (dpf.li.getD (dpf.maxdepth - parentdepth - 1) default).leafCw
    let cfbit := dpf.leafCfbits.testBit (dpf.maxdepth - parentdepth - 1)
    let CWR := LeafNode.xorLsb CW cfbit
    prgout ^^^ (if whichchild then CWR else CW)
  else prgout

/-- `RDPF::leaf`: a stored expansion is used as it is. -/
def leaf (prg : PRG WIDTH) (dpf : RDPF WIDTH) (input : Nat) : LeafNode WIDTH :=
  let expansion := (dpf.li.getD (dpf.maxdepth - dpf.curdepth) default).expansion
  if expansion.length ≠ 0 then expansion.getD input 0
  else
    let node := forRange 0 (dpf.curdepth - 1) (fun d node =>
      dpf.descend prg.node node d (input.testBit (dpf.curdepth - d - 1))) dpf.seed
    dpf.descendToLeaf prg node (dpf.curdepth - 1) (input.testBit 0)

/-- `RDPF::unit_bs`. -/
def unitBs (leaf : LeafNode WIDTH) : RegBS := ⟨getLsb (leaf 0)⟩

/-- `RDPF::unit_as`. -/
def unitAs (dpf : RDPF WIDTH) (leaf : LeafNode WIDTH) : RegAS :=
  let lowword := lowWord (leaf 0)
  let lowword := if dpf.whichhalf then -lowword else lowword
  ⟨lowword * (dpf.li.getD (dpf.maxdepth - dpf.curdepth) default).unitSumInverse⟩

/-- `RDPF::scaled_xs`. -/
def scaledXs (leaf : LeafNode WIDTH) : Fin WIDTH → RegXS := fun j => ⟨scaledWord leaf j⟩

/-- Assignment to an array entry, which must exist. -/
def setEntry {T : Type} (a : Fin WIDTH → T) (j : Nat) (v : T) : Option (Fin WIDTH → T) :=
  if h : j < WIDTH then some (Function.update a ⟨j, h⟩ v) else none

/-- `RDPF::scaled_as`.  The loop runs to `WIDTH`, not to `LWIDTH`: from width 3 on it leaves the leaf
and the result, which is `none` here. -/
def scaledAs (dpf : RDPF WIDTH) (leaf : LeafNode WIDTH) : Option (Fin WIDTH → RegAS) := do
  let signed (word : Value) : RegAS := ⟨if dpf.whichhalf then -word else word⟩
  let a ← setEntry 0 0 (signed (highWord (leaf 0)))
  let (a, _) ← forRangeOpt 1 WIDTH (fun i (a, j) =>
    if h : i < LWIDTH WIDTH then do
      let a ← setEntry a j (signed (lowWord (leaf ⟨i, h⟩)))
      if j + 1 < WIDTH then do
        let a ← setEntry a (j + 1) (signed (highWord (leaf ⟨i, h⟩)))
        some (a, j + 2)
      else some (a, j + 1)
    else none) (a, 1)
  some a

end RDPF

/-! ## Expanding and correcting one level -/

/-- The number of threads a level of `size` nodes is dealt to:
`min(ceil(sqrt(double(size/6000))), max_nthreads)`. -/
def levelThreads (maxNthreads : ℕ+) (size : Nat) : Nat :=
  let q := size / 6000
  min (if q.sqrt * q.sqrt = q then q.sqrt else q.sqrt + 1) maxNthreads

section Level

variable {NT : Type} [LevelNode NT]

/-- `expand_level_nothreads`. -/
def expandLevelNothreads (prg : DPFnode → Bool → NT) (start stop : Nat) (curlevel : Nat → DPFnode)
    (nextlevel : Nat → NT) : (Nat → NT) × NT × NT :=
  forRange start stop (fun i (nextlevel, L, R) =>
    let lchild := prg (curlevel i) false
    let rchild := prg (curlevel i) true
    (Function.update (Function.update nextlevel (2 * i) lchild) (2 * i + 1) rchild,
      L ^^^ lchild, R ^^^ rchild)) (nextlevel, 0, 0)

/-- `expand_level`. -/
def expandLevel (prg : DPFnode → Bool → NT) (maxNthreads : ℕ+) (level : Nat)
    (curlevel : Nat → DPFnode) : (Nat → NT) × NT × NT :=
  if maxNthreads = 1 ∨ level < 19 then
    expandLevelNothreads prg 0 (2 ^ level) curlevel 0
  else
    forChunks (2 ^ level) (levelThreads maxNthreads (2 ^ level)) (fun lo hi (nextlevel, L, R) =>
      let (nextlevel, tL, tR) := expandLevelNothreads prg lo hi curlevel nextlevel
      (nextlevel, L ^^^ tL, R ^^^ tR)) (0, 0, 0)

/-- `finalize_nonleaf_layer_nothreads`. -/
def finalizeNonleafLayerNothreads (start stop : Nat) (curlevel : Nat → DPFnode) (CWL CWR : NT)
    (nextlevel : Nat → NT) : Nat → NT :=
  forRange start stop (fun i nextlevel =>
    let flag := getLsb (curlevel i)
    let nextlevel :=
      Function.update nextlevel (2 * i) (LevelNode.xorIf (nextlevel (2 * i)) CWL flag)
    Function.update nextlevel (2 * i + 1) (LevelNode.xorIf (nextlevel (2 * i + 1)) CWR flag))
    nextlevel

/-- `finalize_nonleaf_layer`. -/
def finalizeNonleafLayer (maxNthreads : ℕ+) (level : Nat) (curlevel : Nat → DPFnode)
    (CWL CWR : NT) (nextlevel : Nat → NT) : Nat → NT :=
  if maxNthreads = 1 ∨ level < 19 then
    finalizeNonleafLayerNothreads 0 (2 ^ level) curlevel CWL CWR nextlevel
  else
    forChunks (2 ^ level) (levelThreads maxNthreads (2 ^ level)) (fun lo hi nextlevel =>
      finalizeNonleafLayerNothreads lo hi curlevel CWL CWR nextlevel) nextlevel

end Level

/-- What `finalize_leaf_layer` leaves: the leaves (corrected only if the expansion is saved) and
the sums of their words. -/
structure LeafLayer (WIDTH : Nat) where
  nextlevel : Nat → LeafNode WIDTH
  lowSum : Value
  highSum : Fin WIDTH → Value
  highXor : Fin WIDTH → Value

/-- `finalize_leaf_layer_nothreads`. -/
def finalizeLeafLayerNothreads (start stop : Nat) (curlevel : Nat → DPFnode)
    (saveExpansion : Bool) (CWL CWR : LeafNode WIDTH) (nextlevel : Nat → LeafNode WIDTH) :
    LeafLayer WIDTH :=
  forRange start stop (fun i s =>
    let flag := getLsb (curlevel i)
    let leftchild := (s.nextlevel (2 * i)).xorIf CWL flag
    let rightchild := (s.nextlevel (2 * i + 1)).xorIf CWR flag
    { nextlevel :=
        if saveExpansion then
          Function.update (Function.update s.nextlevel (2 * i) leftchild) (2 * i + 1) rightchild
        else s.nextlevel
      lowSum := s.lowSum + (lowWord (leftchild 0) + lowWord (rightchild 0))
      highSum := fun j => s.highSum j + (scaledWord leftchild j + scaledWord rightchild j)
      highXor := fun j => s.highXor j ^^^ (scaledWord leftchild j ^^^ scaledWord rightchild j) })
    ⟨nextlevel, 0, 0, 0⟩

/-- `finalize_leaf_layer`. -/
def finalizeLeafLayer (maxNthreads : ℕ+) (level : Nat) (curlevel : Nat → DPFnode)
    (saveExpansion : Bool) (CWL CWR : LeafNode WIDTH) (nextlevel : Nat → LeafNode WIDTH) :
    LeafLayer WIDTH :=
  if maxNthreads = 1 ∨ level < 19 then
    finalizeLeafLayerNothreads 0 (2 ^ level) curlevel saveExpansion CWL CWR nextlevel
  else
    forChunks (2 ^ level) (levelThreads maxNthreads (2 ^ level)) (fun lo hi s =>
      let t := finalizeLeafLayerNothreads lo hi curlevel saveExpansion CWL CWR s.nextlevel
      { nextlevel := t.nextlevel
        lowSum := s.lowSum + t.lowSum
        highSum := fun j => s.highSum j + t.highSum j
        highXor := fun j => s.highXor j ^^^ t.highXor j }) ⟨nextlevel, 0, 0, 0⟩

/-! ## Creating one level together -/

/-- A party's uncorrected next level with the correction word and flag it has obtained. -/
structure LevelCorrection (NT : Type) where
  expanded : Nat → NT
  CW : NT
  cfbit : Bool

/-- `create_level` up to the correction words: each party expands its level, puts its parity bit
into its right sum, the parity bits are exchanged and the sum of the side not chosen is opened. -/
def levelCorrection {NT : Type} [LevelNode NT] (prg : DPFnode → Bool → NT)
    (nthreads : Player → ℕ+) (level : Nat) (curlevel : Player → Nat → DPFnode)
    (bsChoice : Player → RegBS) (triples : LevelNode.Triples NT) (p : Player) :
    LevelCorrection NT :=
  let expanded q := expandLevel prg (nthreads q) level (curlevel q)
  let L q := (expanded q).2.1
  let R q := (expanded q).2.2
  let ourParityBit q := (LevelNode.getLsb (L q) ^^ LevelNode.getLsb (R q)) ^^ Player.bit q
  let R' q := LevelNode.xorLsb (R q) (ourParityBit q)
  { expanded := (expanded p).1
    CW := LevelNode.reconstructChoice triples bsChoice R' L p
    cfbit := ourParityBit p ^^ ourParityBit p.peer }

/-- `create_level` into an inner level: the corrected nodes, `CW` and `cfbit`. -/
def createNodeLevel (prg : PRG WIDTH) (nthreads : Player → ℕ+) (level : Nat)
    (curlevel : Player → Nat → DPFnode) (bsChoice : Player → RegBS) (triples : NodeSelectTriples)
    (p : Player) : (Nat → DPFnode) × DPFnode × Bool :=
  let c := levelCorrection prg.node nthreads level curlevel bsChoice triples p
  (finalizeNonleafLayer (nthreads p) level (curlevel p) c.CW (LevelNode.xorLsb c.CW c.cfbit)
    c.expanded, c.CW, c.cfbit)

/-- The `LeafInfo` that a party records, once the low sums are exchanged. -/
def LeafLayer.info (layer : LeafLayer WIDTH) (p : Player) (level : Nat) (CW : LeafNode WIDTH)
    (saveExpansion : Bool) (lowSum : Value) : LeafInfo WIDTH where
  leafCw := CW
  unitSumInverse := inverseValueT lowSum
  scaledSum := fun j => ⟨if p.bit then -layer.highSum j else layer.highSum j⟩
  scaledXor := fun j => ⟨layer.highXor j⟩
  expansion := if saveExpansion then (List.range (2 ^ (level + 1))).map layer.nextlevel else []

/-- `create_level` into a leaf level: the `LeafInfo` and `cfbit`.  The parties exchange their low
sums; an even total fails the assertion. -/
def createLeafLevel (prg : PRG WIDTH) (nthreads : Player → ℕ+) (level : Nat)
    (curlevel : Player → Nat → DPFnode) (bsChoice : Player → RegBS)
    (triples : Fin (LWIDTH WIDTH) → NodeSelectTriples) (saveExpansion : Bool) :
    Option (Player → LeafInfo WIDTH × Bool) :=
  let c p := levelCorrection prg.leaf nthreads level curlevel bsChoice triples p
  let layer p := finalizeLeafLayer (nthreads p) level (curlevel p) saveExpansion (c p).CW
    (LevelNode.xorLsb (c p).CW (c p).cfbit) (c p).expanded
  let ourLowSum p := if Player.bit p then -(layer p).lowSum else (layer p).lowSum
  let lowSum p := ourLowSum p + ourLowSum p.peer
  if lowSum .p0 &&& 1 ≠ 0 ∧ lowSum .p1 &&& 1 ≠ 0 then
    some fun p => ((layer p).info p level (c p).CW saveExpansion (lowSum p), (c p).cfbit)
  else none

/-! ## The constructor -/

/-- The select triples of one iteration: one for the inner level, `LWIDTH` for the leaf level. -/
structure LevelTriples (WIDTH : Nat) where
  node : NodeSelectTriples
  leaf : Fin (LWIDTH WIDTH) → NodeSelectTriples

/-- A party's RDPF under construction, and `curlevel`. -/
structure Construction (WIDTH : Nat) where
  dpf : RDPF WIDTH
  curlevel : Nat → DPFnode

namespace RDPF

/-- Record a leaf level: entry `index` of `li` and bit `index` of `leaf_cfbits`. -/
def setLeafLevel (dpf : RDPF WIDTH) (index : Nat) (info : LeafInfo WIDTH) (cfbit : Bool) :
    RDPF WIDTH :=
  { dpf with
    li := dpf.li.set index info
    leafCfbits := dpf.leafCfbits ||| (cfbit.toNat <<< index) }

/-- The inner coroutine of an iteration, which the last level does not have. -/
def createNodeStep (prg : PRG WIDTH) (nthreads : Player → ℕ+) (target : Player → RegXS)
    (depth : Nat) (triples : Nat → LevelTriples WIDTH) (level : Nat)
    (s : Player → Construction WIDTH) (p : Player) : Construction WIDTH :=
  if level < depth - 1 then
    let (nextlevel, CW, cfbit) := createNodeLevel prg nthreads level (fun q => (s q).curlevel)
      (fun q => (target q).bit (depth - level - 1)) (triples level).node p
    { dpf := { (s p).dpf with toDPF := (s p).dpf.pushLevel level CW cfbit }, curlevel := nextlevel }
  else s p

/-- One iteration of the constructor's loop, at `level`: the inner coroutine, and the leaf one where
the next level is a leaf level.  Both read the same `curlevel`.  Each iteration first allocates
`1<<(level+1)` nodes or leaves, an `int`: the value is negative when bit 31 is the one set, and the
allocation throws. -/
def createStep (prg : PRG WIDTH) (nthreads : Player → ℕ+) (target : Player → RegXS) (depth : Nat)
    (incremental saveExpansion : Bool) (triples : Nat → LevelTriples WIDTH) (level : Nat)
    (s : Player → Construction WIDTH) : Option (Player → Construction WIDTH) :=
  let s' := createNodeStep prg nthreads target depth triples level s
  if 31 ≤ level + 1 then none
  else if incremental ∨ level = depth - 1 then
    (createLeafLevel prg nthreads level (fun q => (s q).curlevel)
      (fun q => (target q).bit (depth - level - 1)) (triples level).leaf saveExpansion).map
      fun leafLevel p => { s' p with
        dpf := (s' p).dpf.setLeafLevel (depth - level - 1) (leafLevel p).1 (leafLevel p).2 }
  else some s'

/-- The greatest depth that the constructor makes: the last level has `1<<depth` leaves. -/
def maxKeyDepth : Nat := 30

/-- The state before the loop: the flag bit of the random seed is set to the player. -/
def createInit (seeds : Player → DPFnode) (depth : Nat) (incremental : Bool) (p : Player) :
    Construction WIDTH where
  dpf :=
    { seed := setLsb (seeds p) p.bit
      whichhalf := p.bit
      cw := []
      cfbits := 0
      maxdepth := depth
      curdepth := depth
      li := List.replicate (if incremental then depth else 1) default
      leafCfbits := 0 }
  curlevel := fun _ => setLsb (seeds p) p.bit

/-- `RDPF::RDPF`, run by P0 and P1 with P2 dealing the select triples. -/
def create (prg : PRG WIDTH) (nthreads : Player → ℕ+) (seeds : Player → DPFnode)
    (target : Player → RegXS) (depth : Nat) (incremental saveExpansion : Bool)
    (triples : Nat → LevelTriples WIDTH) : Option (Player → RDPF WIDTH) :=
  (forRangeOpt 0 depth
    (createStep prg nthreads target depth incremental saveExpansion triples)
    (createInit seeds depth incremental)).map fun s p => (s p).dpf

end RDPF

end Prac
