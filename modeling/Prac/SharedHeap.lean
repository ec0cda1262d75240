import Prac.SharedSearch
import Prac.HeapInsert
import Prac.UnitVector

/-!
# The heap on shares (`heap.cpp`)

`MinHeap` as the three parties run it, with what they draw at random as arguments.

* `Shared.MinHeap.insert`, `Shared.MinHeap.insertOptimized`, `Shared.MinHeap.extractMin` — the operations;
  the extraction is the basic one.
* `Shared.Represents` — the shares stand for a heap in the clear.
* `Represents.insert`, `Represents.insertOptimized`, `Represents.extractMin` — where the operation in the
  clear succeeds, the one on shares does too, and represents its result.
-/

namespace Prac

open Loop BinaryHeap
open MinHeap (flat)

namespace Shared

/-- `MinHeap`. -/
structure MinHeap (oramSize : Nat) where
  oram : Duoram RegAS
  numItems : Nat

variable {oramSize : Nat}

namespace MinHeap

/-- A new heap after `MinHeap::init(tio, yield)`. -/
def init : MinHeap oramSize where
  oram := (flat oramSize).init (fun _ => ⟨maxint⟩) Duoram.create
  numItems := 0

/-! ## Insertion -/

/-- What the parties draw for a round of `insert`. -/
structure BubbleCoins where
  cdpf : CdpfCoins
  oswap : MultTriple
  child : Player → RegAS
  parent : Player → RegAS

/-- The loop body of `insert`. -/
def bubble (tio : MPCTIO 1) (A : Shape oramSize) (coins : BubbleCoins) (childindex parentindex : Nat)
    (mem : Duoram RegAS) : Duoram RegAS :=
  let sharechild := MemRefExpl.read A childindex mem
  let shareparent := MemRefExpl.read A parentindex mem
  let lt := below tio coins.cdpf sharechild shareparent
  let swapped := mpcOswap 64 coins.oswap sharechild shareparent lt
  let mem := MemRefExpl.write A false childindex (fun p => (swapped p).1) coins.child mem
  MemRefExpl.write A false parentindex (fun p => (swapped p).2) coins.parent mem

/-- What the parties draw for `insert`; the rounds are numbered by the child. -/
structure InsertCoins where
  val : Player → RegAS
  bubble : Nat → BubbleCoins

/-- `MinHeap::insert`. -/
def insert (tio : MPCTIO 1) (h : MinHeap oramSize) (val : Player → RegAS) (coins : InsertCoins) :
    Option (MinHeap oramSize) :=
  let HeapArray := flat oramSize
  let numItems := h.numItems + 1
  if numItems < oramSize then
    let mem := MemRefExpl.write HeapArray false numItems val coins.val h.oram
    some
      { oram := climb (fun childindex => bubble tio HeapArray (coins.bubble childindex) childindex) numItems mem
        numItems := numItems }
  else none

/-- The running XOR `u` of the flags. -/
def runningXor (flag : Nat → Player → RegBS) : Nat → Player → RegBS
  | 0 => flag 0
  | j + 1 => fun p => ⟨(flag (j + 1) p).bshare ^^ (runningXor flag j p).bshare⟩

/-- What the parties draw for `insert_optimized`; `w`, `v` and `add` are numbered by the nodes of the
path. -/
structure OptimizedCoins where
  search : SearchCoins
  zero : Player → RegAS
  keys : TripleCoins 1
  w : Nat → MultTriple
  v : Nat → MultTriple
  add : Nat → Player → RegAS

/-- `MinHeap::insert_optimized`. -/
def insertOptimized (tio : MPCTIO 1) (h : MinHeap oramSize) (val : Player → RegAS) (coins : OptimizedCoins) :
    Option (MinHeap oramSize) :=
  let HeapArray := flat oramSize
  let numItems := h.numItems + 1
  if numItems < oramSize then do
    let P := Shape.path HeapArray numItems
    let foundidx ← binarySearch tio P h.oram val coins.search
    let height := P.size
    let mem := MemRefExpl.write HeapArray false numItems (fun _ => 0) coins.zero h.oram
    let logheight := Nat.log2 height + 1
    let oidx ← OblivIndex.create tio coins.keys foundidx logheight
    let unit := oidx.unitVector tio.prg logheight height foundidx
    let flag (j : Nat) (p : Player) : RegBS := (unit p).getD j ⟨false⟩
    let u := runningXor flag
    let path j := MemRefExpl.read P j mem
    let w j := if j > 0 then mpcFlagmult 64 (coins.w j) (u (j - 1)) (fun p => path (j - 1) p - path j p)
      else fun _ => 0
    let v j := mpcFlagmult 64 (coins.v j) (flag j) (fun p => val p - path j p)
    some
      { oram := forRange 0 height (fun j mem =>
          MemRefExpl.update P false j (fun p => w j p + v j p) (coins.add j) mem) mem
        numItems := numItems }
  else none

/-! ## Extraction -/

/-- What the parties draw to compare a node with its children. -/
structure OffsetCoins where
  cdpf : CdpfCoins
  smallerchild : MultTriple
  cdpf0 : CdpfCoins
  ltlt1 : BitSelectTriple
  leftindex : MultTriple
  index : MultTriple

/-- The comparisons of a node with its children and the offsets that follow from them: `lt_c`, `gteq`,
`update_index_by` and `update_leftindex_by`. -/
def restoreOffsets (tio : MPCTIO 1) (coins : OffsetCoins) (parent leftchild rightchild : Player → RegAS) :
    (Player → RegBS) × (Player → RegBS) × (Player → RegAS) × (Player → RegAS) :=
  let cmp := compareWith tio.prg.node coins.cdpf fun p => leftchild p - rightchild p
  let lt_c p := (cmp p).1
  let gteq p : RegBS := ⟨(cmp p).2.2.bshare ^^ (cmp p).2.1.bshare⟩
  let smallerchild := mpcSelect 64 coins.smallerchild lt_c rightchild leftchild
  let lt_p := below tio coins.cdpf0 smallerchild parent
  let ltlt1 := mpcAnd coins.ltlt1 lt_c lt_p
  let update_leftindex_by := mpcFlagmult 64 coins.leftindex ltlt1 fun p => parent p - leftchild p
  let update_index_by := mpcFlagmult 64 coins.index lt_p fun p => smallerchild p - parent p
  (lt_c, gteq, update_index_by, update_leftindex_by)

/-- What the parties draw for `restore_heap_property`; its reads and updates are those of the parent, the
left child and the right child. -/
structure RestoreCoins where
  read : Fin 3 → AccessCoins RegAS
  offsets : OffsetCoins
  smallerindex : ValSelectTriple
  junk : Player → Value
  update : Fin 3 → AccessCoins RegAS

/-- `MinHeap::restore_heap_property`.  The parallel updates are made one after another. -/
def restoreHeapProperty (tio : MPCTIO 1) (oramSize : Nat) (coins : RestoreCoins) (mem : Duoram RegAS)
    (index : Player → RegXS) : Option ((Player → RegXS) × Duoram RegAS) := do
  let HeapArray := flat oramSize
  let leftchildindex p : RegXS := ⟨(index p).xshare <<< 1⟩
  let rightchildindex p : RegXS := ⟨(leftchildindex p).xshare ^^^ if p.bit then 0 else 1⟩
  let (parent, st) ← HeapArray.readAt tio index (coins.read 0) (mem, false)
  let (leftchild, st) ← HeapArray.readAt tio leftchildindex (coins.read 1) st
  let (rightchild, st) ← HeapArray.readAt tio rightchildindex (coins.read 2) st
  let (lt_c, _, update_index_by, update_leftindex_by) :=
    restoreOffsets tio coins.offsets parent leftchild rightchild
  let smallerindex :=
    mpcSelectXS 64 coins.smallerindex coins.junk lt_c rightchildindex leftchildindex
  let st ← HeapArray.updateAt tio index update_index_by (coins.update 0) st
  let st ← HeapArray.updateAt tio leftchildindex update_leftindex_by (coins.update 1) st
  let (mem, _) ← HeapArray.updateAt tio rightchildindex
    (fun p => -(update_index_by p + update_leftindex_by p)) (coins.update 2) st
  some (smallerindex, mem)

/-- What the parties draw for `restore_heap_property_at_explicit_index`. -/
structure ExplicitCoins where
  offsets : OffsetCoins
  update : Fin 3 → Player → RegAS

/-- `MinHeap::restore_heap_property_at_explicit_index`. -/
def restoreHeapPropertyAtExplicitIndex (tio : MPCTIO 1) (oramSize : Nat) (coins : ExplicitCoins)
    (mem : Duoram RegAS) (index : Nat) : ((Player → RegXS) × (Player → RegBS)) × Duoram RegAS :=
  let HeapArray := flat oramSize
  let parent := MemRefExpl.read HeapArray index mem
  let leftchild := MemRefExpl.read HeapArray (2 * index) mem
  let rightchild := MemRefExpl.read HeapArray (2 * index + 1) mem
  let (lt, gteq, update_index_by, update_leftindex_by) :=
    restoreOffsets tio coins.offsets parent leftchild rightchild
  let leftchildindex := 2 * index
  let rightchildindex := 2 * index + 1
  let left p : RegXS := ⟨(RegXS.ofBS (lt p)).xshare &&& BitVec.ofNat 64 leftchildindex⟩
  let right p : RegXS := ⟨(RegXS.ofBS (gteq p)).xshare &&& BitVec.ofNat 64 rightchildindex⟩
  let smallerindex p : RegXS := ⟨(left p).xshare ^^^ (right p).xshare⟩
  let mem := MemRefExpl.update HeapArray false index update_index_by (coins.update 0) mem
  let mem := MemRefExpl.update HeapArray false leftchildindex update_leftindex_by (coins.update 1) mem
  let mem := MemRefExpl.update HeapArray false rightchildindex
    (fun p => -(update_index_by p + update_leftindex_by p)) (coins.update 2) mem
  ((smallerindex, gteq), mem)

/-- What the parties draw for `extract_min`; the levels below the root are numbered. -/
structure ExtractCoins where
  root : Player → RegAS
  last : Player → RegAS
  outroot : ExplicitCoins
  restore : Nat → RestoreCoins

/-- `MinHeap::extract_min(tio, yield, 0)`, which "cannot be called on an empty heap".  `std::log2` is taken
as the exact logarithm. -/
def extractMin (tio : MPCTIO 1) (h : MinHeap oramSize) (coins : ExtractCoins) :
    Option ((Player → RegAS) × MinHeap oramSize) :=
  let HeapArray := flat oramSize
  let height := Nat.log2 h.numItems
  if h.numItems = 0 ∨ oramSize ≤ h.numItems then none
  else
    let minval := MemRefExpl.read HeapArray 1 h.oram
    let mem := MemRefExpl.write HeapArray false 1 (MemRefExpl.read HeapArray h.numItems h.oram) coins.root h.oram
    let v := publicShare maxint
    let mem := MemRefExpl.write HeapArray false h.numItems v coins.last mem
    let numItems := h.numItems - 1
    if numItems = 0 then some (minval, ⟨mem, numItems⟩)
    else if oramSize ≤ 3 then none
    else do
      let (outroot, mem) := restoreHeapPropertyAtExplicitIndex tio oramSize coins.outroot mem 1
      let (_, mem) ← forRangeOpt 0 (height - 1)
        (fun i (smaller, mem) => restoreHeapProperty tio oramSize (coins.restore i) mem smaller) (outroot.1, mem)
      some (minval, ⟨mem, numItems⟩)

end MinHeap

/-- The shares stand for a heap in the clear. -/
structure Represents (h : Shared.MinHeap oramSize) (ideal : Prac.MinHeap oramSize) : Prop where
  oram : h.oram.Holds oramSize ideal.oram
  numItems : h.numItems = ideal.numItems

namespace MinHeap

theorem flat_padFree : (flat oramSize).PadFree := trivial

theorem flat_oblivious (htwo : 2 ≤ oramSize) (hle : oramSize ≤ 2 ^ RDPF.maxKeyDepth) : (flat oramSize).Oblivious := by
  have hsize : (flat oramSize).size = oramSize := Shape.whole_size oramSize
  refine ⟨trivial, hsize ▸ htwo, ?_⟩
  unfold Shape.addrSize
  rw [hsize, if_pos (show oramSize > 1 from htwo)]
  exact Nat.size_le.mpr (by omega)

/-! ### Insertion -/

theorem bubble_holds (tio : MPCTIO 1) {A : Shape oramSize} (hA : A.PadFree) (coins : BubbleCoins)
    (childindex parentindex : Nat) {mem : Duoram RegAS} {w : Words} (h : mem.Holds oramSize w) :
    (bubble tio A coins childindex parentindex mem).Holds oramSize
      (Prac.MinHeap.bubble A childindex parentindex w) := by
  have hlt := reveal_below tio coins.cdpf (MemRefExpl.read A childindex mem) (MemRefExpl.read A parentindex mem)
  have hswap := reveal_oswap coins.oswap
    (below tio coins.cdpf (MemRefExpl.read A childindex mem) (MemRefExpl.read A parentindex mem))
    (MemRefExpl.read A childindex mem) (MemRefExpl.read A parentindex mem)
  rw [hlt, h.read, h.read] at hswap
  obtain ⟨hchild, hparent⟩ := Prod.ext_iff.mp hswap
  exact (h.set hA childindex hchild coins.child).set hA parentindex hparent coins.parent

theorem insert_represents (tio : MPCTIO 1) {h : Shared.MinHeap oramSize} {ideal ideal' : Prac.MinHeap oramSize}
    (hrep : Represents h ideal) (val : Player → RegAS) (coins : InsertCoins)
    (hrun : ideal.insert (reveal val) = some ideal') :
    ∃ h', insert tio h val coins = some h' ∧ Represents h' ideal' := by
  unfold Prac.MinHeap.insert at hrun
  unfold insert
  rw [hrep.numItems]
  dsimp only at hrun ⊢
  by_cases hlt : ideal.numItems + 1 < oramSize
  · rw [if_pos hlt] at hrun ⊢
    have hset := hrep.oram.set flat_padFree (ideal.numItems + 1) (rfl : reveal val = reveal val) coins.val
    have hclimb := climb_rel (fun (mem : Duoram RegAS) w => mem.Holds oramSize w)
      (fun c _ _ h => bubble_holds tio flat_padFree (coins.bubble c) c (c / 2) h) (ideal.numItems + 1) hset
    refine ⟨_, rfl, ?_⟩
    rw [← Option.some.inj hrun]
    exact ⟨hclimb, rfl⟩
  · rw [if_neg hlt] at hrun
    cases hrun

theorem reveal_runningXor {flag : Nat → Player → RegBS} {flag' : Nat → Bool} {j : Nat}
    (h : ∀ i ≤ j, reveal (flag i) = flag' i) :
    reveal (runningXor flag j) = Prac.MinHeap.runningXor flag' j := by
  induction j with
  | zero => exact h 0 le_rfl
  | succ j ih =>
      rw [runningXor, reveal_xorBS, h (j + 1) le_rfl, ih fun i hi => h i (Nat.le_succ_of_le hi),
        Prac.MinHeap.runningXor]

/-- The flags of the path, from the players' unit vectors. -/
theorem reveal_flag {prg : PRG 1} {depth : Nat} {ox : OblivIndex RegXS 1} (h : ox.UnitValid prg depth)
    {nitems : Nat} (hitems : nitems ≤ 2 ^ depth) (foundidx : Player → RegXS) {j : Nat} (hj : j < nitems) :
    (reveal fun p => (ox.unitVector prg depth nitems foundidx p).getD j ⟨false⟩) =
      Prac.MinHeap.unitVector (reveal foundidx) depth j := by
  have hlen p : (ox.unitVector prg depth nitems foundidx p).length = nitems := by
    rw [OblivIndex.unitVector_eq, List.length_map, List.length_range]
  have hentry := congrArg (fun l => l[j]?) (h.unitVector_xor hitems foundidx)
  simp only [List.getElem?_zipWith, List.getElem?_map, List.getElem?_range hj, Option.map_some] at hentry
  rw [List.getElem?_eq_getElem ((hlen .p0).symm ▸ hj), List.getElem?_eq_getElem ((hlen .p1).symm ▸ hj)] at hentry
  rw [reveal_bs, List.getD_eq_getElem _ _ ((hlen .p0).symm ▸ hj), List.getD_eq_getElem _ _ ((hlen .p1).symm ▸ hj)]
  exact Option.some.inj hentry

/-- What `insert_optimized` adds to entry `j` of the path. -/
theorem reveal_shift (coins : OptimizedCoins) {flag : Nat → Player → RegBS} {flag' : Nat → Bool}
    {path : Nat → Player → RegAS} {path' : Nat → Value} (val : Player → RegAS) {j : Nat}
    (hflag : ∀ i ≤ j, reveal (flag i) = flag' i) (hpath : ∀ i, reveal (path i) = path' i) :
    (reveal fun p =>
      (if j > 0 then
        mpcFlagmult 64 (coins.w j) (runningXor flag (j - 1)) (fun p => path (j - 1) p - path j p)
      else fun _ => 0) p + mpcFlagmult 64 (coins.v j) (flag j) (fun p => val p - path j p) p) =
    (if j > 0 then flagmult (Prac.MinHeap.runningXor flag' (j - 1)) (path' (j - 1) - path' j) else 0) +
      flagmult (flag' j) (reveal val - path' j) := by
  have hu := reveal_runningXor fun i (hi : i ≤ j - 1) => hflag i (hi.trans (Nat.sub_le j 1))
  rw [reveal_add, reveal_flagmult, hflag j le_rfl, reveal_sub, hpath]
  congr 1
  by_cases hpos : j > 0
  · rw [if_pos hpos, if_pos hpos, ← hu, ← hpath, ← hpath, ← reveal_sub, ← reveal_flagmult]
  · rw [if_neg hpos, if_neg hpos]
    exact reveal_zero

theorem insertOptimized_represents (tio : MPCTIO 1) {h : Shared.MinHeap oramSize}
    {ideal ideal' : Prac.MinHeap oramSize} (hsize : oramSize ≤ 2 ^ RDPF.maxKeyDepth) (hrep : Represents h ideal)
    (val : Player → RegAS) (coins : OptimizedCoins) (hrun : ideal.insertOptimized (reveal val) = some ideal') :
    ∃ h', insertOptimized tio h val coins = some h' ∧ Represents h' ideal' := by
  unfold Prac.MinHeap.insertOptimized at hrun
  unfold insertOptimized
  rw [hrep.numItems]
  dsimp only at hrun ⊢
  by_cases hlt : ideal.numItems + 1 < oramSize
  · rw [if_pos hlt] at hrun ⊢
    obtain ⟨P, hP⟩ : ∃ P, P = Shape.path (flat oramSize) (ideal.numItems + 1) := ⟨_, rfl⟩
    have hvalid : P.Valid := hP ▸ ⟨trivial, Nat.succ_pos _, (Shape.whole_size oramSize).symm ▸ hlt⟩
    have hpad : P.PadFree := hP ▸ trivial
    have hheight : P.size = Nat.log2 (ideal.numItems + 1) + 1 := hP ▸ Prac.MinHeap.path_size (Nat.succ_pos _)
    have hlog : Nat.log2 P.size + 1 ≤ RDPF.maxKeyDepth := by
      have hlast : Nat.log2 (ideal.numItems + 1) < RDPF.maxKeyDepth :=
        (Nat.log2_lt (Nat.succ_ne_zero _)).mpr (hlt.trans_le hsize)
      rw [hheight]
      exact (Nat.log2_lt (Nat.succ_ne_zero _)).mpr (lt_of_le_of_lt hlast Nat.lt_two_pow_self)
    rw [← hP] at hrun ⊢
    obtain ⟨found, hfound, hrun⟩ := Option.map_eq_some_iff.mp hrun
    obtain ⟨foundidx, hsearch, rfl⟩ := binarySearch_refines tio hvalid hrep.oram val coins.search hfound
    obtain ⟨oidx, dpfs, hcreate, -, -, hkeys, hdist⟩ := OblivIndex.exists_keys tio coins.keys foundidx
      (Nat.le_add_left 1 (Nat.log2 P.size)) hlog
    have hzero := hrep.oram.set flat_padFree (ideal.numItems + 1) reveal_zero coins.zero
    refine ⟨_, by rw [hsearch, Option.bind_eq_bind, Option.bind_some, hcreate]; rfl, ?_⟩
    rw [← hrun]
    refine ⟨?_, rfl⟩
    refine forRange_rel (fun _ (mem : Duoram RegAS) w => mem.Holds oramSize w) (Nat.zero_le _) hzero ?_
    intro j mem w _ hj hmem
    refine hmem.add hpad j (reveal_shift coins val (fun i hi => ?_) (hzero.read P)) (coins.add j)
    exact reveal_flag (hkeys.unitValid hdist rfl) Nat.lt_log2_self.le foundidx (hi.trans_lt hj)
  · rw [if_neg hlt] at hrun
    cases hrun

/-! ### Extraction -/

/-- The comparisons on shares stand for those in the clear, and so do the offsets. -/
theorem reveal_restoreOffsets (tio : MPCTIO 1) (coins : OffsetCoins)
    (parent leftchild rightchild : Player → RegAS) :
    let r := restoreOffsets tio coins parent leftchild rightchild
    (reveal r.1, reveal r.2.1, reveal r.2.2.1, reveal r.2.2.2) =
      Prac.MinHeap.restoreOffsets (reveal parent) (reveal leftchild) (reveal rightchild) := by
  intro r
  simp only [r, restoreOffsets, Prac.MinHeap.restoreOffsets, reveal_lt, reveal_eq, reveal_gt, reveal_xorBS,
    reveal_flagmult, reveal_and, reveal_sub, reveal_below, reveal_select]

theorem restoreHeapProperty_holds (tio : MPCTIO 1) (htwo : 2 ≤ oramSize) (hsize : oramSize ≤ 2 ^ RDPF.maxKeyDepth)
    (coins : RestoreCoins) {mem : Duoram RegAS} {w : Words} (h : mem.Holds oramSize w)
    (index : Player → RegXS) :
    ∃ smaller mem', restoreHeapProperty tio oramSize coins mem index = some (smaller, mem') ∧
      mem'.Holds oramSize (Prac.MinHeap.restoreHeapProperty oramSize w (reveal index)).2 ∧
      reveal smaller = (Prac.MinHeap.restoreHeapProperty oramSize w (reveal index)).1 := by
  have hA := flat_oblivious htwo hsize
  obtain ⟨leftchildindex, hleft⟩ : ∃ l : Player → RegXS, l = fun p => ⟨(index p).xshare <<< 1⟩ := ⟨_, rfl⟩
  obtain ⟨rightchildindex, hright⟩ : ∃ r : Player → RegXS, r = fun p =>
    ⟨((index p).xshare <<< 1) ^^^ if p.bit then 0 else 1⟩ := ⟨_, rfl⟩
  have hleft' : reveal leftchildindex = reveal index <<< 1 := hleft ▸ reveal_shiftLeft index 1
  have hright' : reveal rightchildindex = reveal leftchildindex ^^^ 1 := by
    rw [hright, hleft]
    exact reveal_xor_public ..
  have hidx := Shape.index_pos_xs hA index
  have hlidx := Shape.index_pos_xs hA leftchildindex
  have hridx := Shape.index_pos_xs hA rightchildindex
  obtain ⟨parent, hparent, hparent'⟩ := h.readAt hA tio index (coins.read 0) hidx
  obtain ⟨left, hl, hl'⟩ := h.readAt hA tio leftchildindex (coins.read 1) hlidx
  obtain ⟨right, hr, hr'⟩ := h.readAt hA tio rightchildindex (coins.read 2) hridx
  have hoffsets := reveal_restoreOffsets tio coins.offsets parent left right
  rw [hparent', hl', hr'] at hoffsets
  rcases hshares : restoreOffsets tio coins.offsets parent left right with ⟨lt_c, gteq, byIndex, byLeft⟩
  rcases hvalues : Prac.MinHeap.restoreOffsets ((flat oramSize).read w ((flat oramSize).index (reveal index)))
    ((flat oramSize).read w ((flat oramSize).index (reveal leftchildindex)))
    ((flat oramSize).read w ((flat oramSize).index (reveal rightchildindex))) with ⟨lt_c', gteq', byIndex', byLeft'⟩
  rw [hshares, hvalues] at hoffsets
  simp only [Prod.mk.injEq] at hoffsets
  obtain ⟨hlt, -, hbyIndex, hbyLeft⟩ := hoffsets
  have hbyRight : (reveal fun p => -(byIndex p + byLeft p)) = -(byIndex' + byLeft') := by
    rw [reveal_neg, reveal_add, hbyIndex, hbyLeft]
  obtain ⟨mem1, hrun1, hmem1⟩ := h.updateAt hA flat_padFree tio index hbyIndex (coins.update 0) hidx
  obtain ⟨mem2, hrun2, hmem2⟩ := hmem1.updateAt hA flat_padFree tio leftchildindex hbyLeft (coins.update 1) hlidx
  obtain ⟨mem3, hrun3, hmem3⟩ := hmem2.updateAt hA flat_padFree tio rightchildindex hbyRight (coins.update 2) hridx
  have hsmaller := reveal_selectXS lt_c coins.smallerindex coins.junk rightchildindex leftchildindex
  rw [hlt] at hsmaller
  have hideal : Prac.MinHeap.restoreHeapProperty oramSize w (reveal index) =
      (select lt_c' (reveal rightchildindex) (reveal leftchildindex),
        (flat oramSize).add ((flat oramSize).add ((flat oramSize).add w ((flat oramSize).index (reveal index)) byIndex')
          ((flat oramSize).index (reveal leftchildindex)) byLeft')
          ((flat oramSize).index (reveal rightchildindex)) (-(byIndex' + byLeft'))) := by
    simp only [Prac.MinHeap.restoreHeapProperty, ← hleft', ← hright', hvalues]
  refine ⟨mpcSelectXS 64 coins.smallerindex coins.junk lt_c rightchildindex leftchildindex, mem3, ?_, ?_, ?_⟩
  · unfold restoreHeapProperty
    simp only [Option.bind_eq_bind]
    rw [← hleft, ← hright]
    simp only [hparent, hl, hr, hshares, hrun1, hrun2, hrun3, Option.bind_some]
  · rw [hideal]
    exact hmem3
  · rw [hideal]
    exact hsmaller

theorem restoreHeapPropertyAtExplicitIndex_holds (tio : MPCTIO 1) (coins : ExplicitCoins) {mem : Duoram RegAS}
    {w : Words} (h : mem.Holds oramSize w) (index : Nat) :
    let r := restoreHeapPropertyAtExplicitIndex tio oramSize coins mem index
    r.2.Holds oramSize (Prac.MinHeap.restoreHeapPropertyAtExplicitIndex oramSize w index).2 ∧
      reveal r.1.1 = (Prac.MinHeap.restoreHeapPropertyAtExplicitIndex oramSize w index).1.1 := by
  have hoffsets := reveal_restoreOffsets tio coins.offsets (MemRefExpl.read (flat oramSize) index mem)
    (MemRefExpl.read (flat oramSize) (2 * index) mem) (MemRefExpl.read (flat oramSize) (2 * index + 1) mem)
  simp only [h.read] at hoffsets
  unfold restoreHeapPropertyAtExplicitIndex Prac.MinHeap.restoreHeapPropertyAtExplicitIndex
  rcases hshares : restoreOffsets tio coins.offsets (MemRefExpl.read (flat oramSize) index mem)
    (MemRefExpl.read (flat oramSize) (2 * index) mem) (MemRefExpl.read (flat oramSize) (2 * index + 1) mem) with
    ⟨lt, gteq, byIndex, byLeft⟩
  rcases hvalues : Prac.MinHeap.restoreOffsets ((flat oramSize).get w index) ((flat oramSize).get w (2 * index))
    ((flat oramSize).get w (2 * index + 1)) with ⟨lt', gteq', byIndex', byLeft'⟩
  rw [hshares, hvalues] at hoffsets
  simp only [Prod.mk.injEq] at hoffsets
  obtain ⟨hlt, hgteq, hbyIndex, hbyLeft⟩ := hoffsets
  have hbyRight : (reveal fun p => -(byIndex p + byLeft p)) = -(byIndex' + byLeft') := by
    rw [reveal_neg, reveal_add, hbyIndex, hbyLeft]
  simp only [hshares, hvalues, reveal_xor, reveal_ofBS_and, hlt, hgteq, and_true]
  exact ((h.add flat_padFree index hbyIndex (coins.update 0)).add flat_padFree (2 * index) hbyLeft
    (coins.update 1)).add flat_padFree (2 * index + 1) hbyRight (coins.update 2)

/-- The levels below the root. -/
theorem restoreLoop_holds (tio : MPCTIO 1) (htwo : 2 ≤ oramSize) (hsize : oramSize ≤ 2 ^ RDPF.maxKeyDepth)
    (coins : Nat → RestoreCoins) (n : Nat) {smaller : Player → RegXS} {v : Value} {mem : Duoram RegAS}
    {w : Words} (h : mem.Holds oramSize w) (hsmaller : reveal smaller = v) :
    ∃ smaller' mem', forRangeOpt 0 n
        (fun i (smaller, mem) => restoreHeapProperty tio oramSize (coins i) mem smaller) (smaller, mem) =
        some (smaller', mem') ∧
      mem'.Holds oramSize (forRange 0 n (fun _ => Prac.MinHeap.extractStep oramSize) (v, w)).2 ∧
      reveal smaller' = (forRange 0 n (fun _ => Prac.MinHeap.extractStep oramSize) (v, w)).1 := by
  induction n with
  | zero => exact ⟨smaller, mem, forRangeOpt_self .., h, hsmaller⟩
  | succ n ih =>
      obtain ⟨smaller', mem', hloop, hmem', hsmaller'⟩ := ih
      obtain ⟨smaller'', mem'', hstep, hmem'', hsmaller''⟩ :=
        restoreHeapProperty_holds tio htwo hsize (coins n) hmem' smaller'
      rw [hsmaller'] at hmem'' hsmaller''
      refine ⟨smaller'', mem'', ?_, ?_, ?_⟩
      · rw [forRangeOpt_succ (Nat.zero_le n), hloop]
        exact hstep
      · rw [forRange_succ (Nat.zero_le n)]
        exact hmem''
      · rw [forRange_succ (Nat.zero_le n)]
        exact hsmaller''

theorem extractMin_represents (tio : MPCTIO 1) {h : Shared.MinHeap oramSize} {ideal ideal' : Prac.MinHeap oramSize}
    (hsize : oramSize ≤ 2 ^ RDPF.maxKeyDepth) (hrep : Represents h ideal) (coins : ExtractCoins) {minval : Value}
    (hrun : ideal.extractMin 0 = some (minval, ideal')) :
    ∃ out h', extractMin tio h coins = some (out, h') ∧ Represents h' ideal' ∧ reveal out = minval := by
  unfold Prac.MinHeap.extractMin at hrun
  unfold extractMin
  rw [hrep.numItems]
  dsimp only at hrun ⊢
  by_cases hbad : ideal.numItems = 0 ∨ oramSize ≤ ideal.numItems
  · rw [if_pos hbad] at hrun
    cases hrun
  rw [if_neg hbad] at hrun ⊢
  have hmin := hrep.oram.read (flat oramSize) 1
  have hroot := hrep.oram.set flat_padFree 1 (hrep.oram.read (flat oramSize) ideal.numItems) coins.root
  have hlast := hroot.set flat_padFree ideal.numItems (reveal_publicShare maxint) coins.last
  by_cases hone : ideal.numItems - 1 = 0
  · rw [if_pos hone] at hrun ⊢
    cases hrun
    exact ⟨_, _, rfl, ⟨hlast, rfl⟩, hmin⟩
  rw [if_neg hone] at hrun ⊢
  by_cases hsmall : oramSize ≤ 3
  · rw [if_pos hsmall] at hrun
    cases hrun
  rw [if_neg hsmall] at hrun ⊢
  obtain ⟨houtroot, hsmaller⟩ := restoreHeapPropertyAtExplicitIndex_holds tio coins.outroot hlast 1
  simp only [lt_irrefl, if_false, if_true, Option.some.injEq, Prod.mk.injEq] at hrun
  obtain ⟨hval, hideal⟩ := hrun
  obtain ⟨smaller, mem, hloop, hmem, -⟩ := restoreLoop_holds tio (by omega) hsize coins.restore
    (Nat.log2 ideal.numItems - 1) houtroot hsmaller
  refine ⟨_, _, by rw [hloop]; rfl, ⟨?_, ?_⟩, hmin.trans hval⟩
  · rw [← hideal]
    exact hmem
  · rw [← hideal]

end MinHeap

end Shared

end Prac
