import Prac.DuoramArray
import Prac.Shares
import Prac.BasicSearch

/-!
# Binary search on shares (`duoram.cpp`)

* `Duoram.Holds` — a memory of the three parties holds shares of some words, ready for any access;
  `Duoram.Holds.read`, `Duoram.Holds.set`, … — the accesses of the three parties against those of
  `Prac.Oram`.
* `Shared.binarySearch`, `Shared.basicBinarySearch` — `Shape::binary_search` and
  `Shape::basic_binary_search`, run by the three parties.
* `Shared.binarySearch_refines`, `Shared.basicBinarySearch_refines` — their shares stand for the index that
  the searches in the clear find.
* `Shared.binary_searches_correct` — on sorted values, that is the position of the target.
-/

namespace Prac

/-- The words behind a memory, outside explicit-only mode and with blinds that agree. -/
structure Duoram.Holds (oramSize : Nat) (mem : Duoram RegAS) (w : Words) : Prop where
  consistent : mem.Consistent oramSize
  words : mem.words = w

namespace Duoram.Holds

variable {oramSize : Nat} {mem : Duoram RegAS} {w : Words} {A : Shape oramSize}

/-- An explicit read. -/
theorem read (h : mem.Holds oramSize w) (A : Shape oramSize) (idx : Nat) :
    reveal (MemRefExpl.read A idx mem) = A.get w idx := by
  rw [← h.words, ← A.reconstruct_eq_get]
  rfl

/-- An explicit update. -/
theorem add (h : mem.Holds oramSize w) (hA : A.PadFree) (idx : Nat) {M : Player → RegAS} {v : Value}
    (hM : reveal M = v) (blind : Player → RegAS) :
    (MemRefExpl.update A false idx M blind mem).Holds oramSize (A.set w idx (A.get w idx + v)) where
  consistent addr haddr := MemRefExpl.update_consistentAt A idx M blind (h.consistent addr haddr)
  words := by
    obtain ⟨target, hcell⟩ := hA.cell_mem idx
    funext addr
    unfold Duoram.words Shape.set Shape.get
    rw [MemRefExpl.update_reconstruct, hcell, ← h.words, ← hM]
    simp only [Cell.mem.injEq]
    rcases eq_or_ne target addr with rfl | hne
    · rw [if_pos rfl, Function.update_self]
      rfl
    · rw [if_neg hne, Function.update_of_ne hne.symm, add_zero]
      rfl

/-- An explicit write. -/
theorem set (h : mem.Holds oramSize w) (hA : A.PadFree) (idx : Nat) {M : Player → RegAS} {v : Value}
    (hM : reveal M = v) (blind : Player → RegAS) :
    (MemRefExpl.write A false idx M blind mem).Holds oramSize (A.set w idx v) := by
  have hdiff : (reveal fun p => M p - MemRefExpl.read A idx mem p) = v - A.get w idx := by
    rw [reveal_sub, h.read, hM]
  have hadd := h.add hA idx hdiff blind
  rwa [add_sub_cancel] at hadd

/-- An oblivious read, of either kind of index. -/
theorem readAt {U : Type} [SharedIndex U] [Targeted U] (h : mem.Holds oramSize w) (hA : A.Oblivious)
    (tio : MPCTIO 1) (idx : Player → U) (coins : AccessCoins RegAS) {oidx : Index}
    (hidx : oidx.pos = A.secretIndex idx) :
    ∃ res, A.readAt tio idx coins (mem, false) = some (res, (mem, false)) ∧ reveal res = A.read w oidx := by
  obtain ⟨res, hrun, hres⟩ := hA.readAt tio idx coins h.consistent
  refine ⟨res, hrun, ?_⟩
  rw [reveal_as, hres, Shape.read, hidx, ← h.words, ← A.reconstruct_eq_get]
  split <;> rfl

/-- An oblivious update, of either kind of index. -/
theorem updateAt {U : Type} [SharedIndex U] [Targeted U] (h : mem.Holds oramSize w) (hA : A.Oblivious)
    (hpad : A.PadFree) (tio : MPCTIO 1) (idx : Player → U) {M : Player → RegAS} {v : Value}
    (hM : reveal M = v) (coins : AccessCoins RegAS) {oidx : Index} (hidx : oidx.pos = A.secretIndex idx) :
    ∃ mem', A.updateAt tio idx M coins (mem, false) = some (mem', false) ∧
      mem'.Holds oramSize (A.add w oidx v) := by
  obtain ⟨mem', hrun, hspec⟩ := hA.updateAt tio idx M coins mem
  refine ⟨mem', hrun, fun addr haddr => (hspec addr).1 (h.consistent addr haddr), ?_⟩
  rw [← hidx] at hspec
  rw [Shape.words_add hpad fun addr => (hspec addr).2, h.words, ← hM]
  rfl

/-- An oblivious read through an incremental index. -/
theorem readIncr (h : mem.Holds oramSize w) (hA : A.Valid) (tio : MPCTIO 1) {oidx : IncrIndex 1}
    {maxdepth : Nat} (hox : oidx.Ok tio.prg maxdepth) (hpos : 1 ≤ oidx.curdepth)
    (hle : oidx.curdepth ≤ maxdepth) (hmax : maxdepth ≤ 64) (hA' : A.addrSize ≤ oidx.curdepth)
    (blinds : Player → Nat → RegAS) (rho : RegAS) :
    reveal (MemRefS.read tio.prg tio.nthreads tio.serverThreads A oidx.ox blinds rho (mem, false)).1 =
      A.read w ⟨oidx.idx, oidx.curdepth⟩ := by
  have hpos' : (⟨oidx.idx, oidx.curdepth⟩ : Index).pos = oidx.ox.index oidx.curdepth := by
    show oidx.idx.toNat % 2 ^ oidx.curdepth =
      (((oidx.ox.idx .p0).xshare ^^^ (oidx.ox.idx .p1).xshare) &&& maskBits oidx.curdepth).toNat
    rw [toNat_and_maskBits (hle.trans hmax), BitVec.toNat_setWidth]
    rfl
  have hvalid : oidx.ox.UpdateValid RegAS tio.prg oidx.curdepth := hox.updateValid hpos hle
  rw [← h.words]
  exact Shape.read_refines tio.nthreads tio.serverThreads hA hA' hvalid.toValid h.consistent blinds rho hpos'

end Duoram.Holds

/-- A shared index of a shape, in the clear. -/
theorem Shape.index_pos_xs {oramSize : Nat} {A : Shape oramSize} (hA : A.Oblivious) (idx : Player → RegXS) :
    (A.index (reveal idx)).pos = A.secretIndex idx := by
  have hbits : A.addrSize ≤ 64 := hA.addrSize_le.trans (by decide)
  show _ = (((idx .p0).xshare ^^^ (idx .p1).xshare) &&& maskBits A.addrSize).toNat
  rw [toNat_and_maskBits hbits, BitVec.toNat_setWidth]
  rfl

theorem Shape.index_pos_as {oramSize : Nat} {A : Shape oramSize} (hA : A.Oblivious) (idx : Player → RegAS) :
    (A.index (reveal idx)).pos = A.secretIndex idx := by
  have hbits : A.addrSize ≤ 64 := hA.addrSize_le.trans (by decide)
  show _ = (((idx .p0).ashare + (idx .p1).ashare) &&& maskBits A.addrSize).toNat
  rw [toNat_and_maskBits hbits, BitVec.toNat_setWidth]
  rfl

namespace Shared

/-- What the parties draw for a binary search, by level. -/
structure SearchCoins where
  keys : TripleCoins 1
  cdpf : Nat → CdpfCoins
  blinds : Player → Nat → RegAS
  rho : Nat → RegAS

variable {oramSize : Nat}

/-- The shares of `val < target`. -/
def below (tio : MPCTIO 1) (coins : CdpfCoins) (val target : Player → RegAS) (p : Player) : RegBS :=
  (compareWith tio.prg.node coins (fun q => val q - target q) p).1

/-- The search loop at `depth` levels to go. -/
def searchLoop (tio : MPCTIO 1) (P : Shape oramSize) (mem : Duoram RegAS) (target : Player → RegAS)
    (coins : SearchCoins) : Nat → IncrIndex 1 → IncrIndex 1
  | 0, oidx => oidx
  | depth + 1, oidx =>
    let S := Shape.stride P (1 <<< depth - 1) (1 <<< (depth + 1))
    let val := (MemRefS.read tio.prg tio.nthreads tio.serverThreads S oidx.ox coins.blinds (coins.rho depth)
      (mem, false)).1
    let lt := below tio (coins.cdpf depth) val target
    searchLoop tio P mem target coins depth (oidx.incr lt)

/-- `Shape::binary_search`. -/
def binarySearch (tio : MPCTIO 1) (A : Shape oramSize) (mem : Duoram RegAS) (target : Player → RegAS)
    (coins : SearchCoins) : Option (Player → RegXS) :=
  if A.size = 0 then some fun _ => 0
  else
    let (padsize, depth) := Shape.padLoop A.size 1 0
    if depth > 31 then none
    else
      let P := Shape.pad A padsize maxint
      let mid := 1 <<< (depth - 1) - 1
      let val := MemRefExpl.read P mid mem
      let lt := below tio (coins.cdpf depth) val target
      if depth = 1 then some fun p => ⟨BitVec.ofNat 64 (lt p).bshare.toNat⟩
      else do
        let oidx ← IncrIndex.create tio coins.keys (depth - 1)
        some (searchLoop tio P mem target coins (depth - 1) (oidx.incr lt)).ox.idx

theorem reveal_below (tio : MPCTIO 1) (coins : CdpfCoins) (val target : Player → RegAS) :
    reveal (below tio coins val target) = (signedCompare (reveal val - reveal target)).1 := by
  rw [← reveal_sub]
  exact reveal_lt ..

/-- The index that the loop finds on shares is the one that it finds in the clear. -/
theorem searchLoop_refines (tio : MPCTIO 1) {P : Shape oramSize} (hP : P.Valid) {d maxdepth : Nat}
    (hsize : P.size = 2 ^ d) (hd : d ≤ 63) {mem : Duoram RegAS} {w : Words} (hmem : mem.Holds oramSize w)
    (target : Player → RegAS) (coins : SearchCoins) (hmax : maxdepth + 1 = d) (depth : Nat)
    {oidx : IncrIndex 1} (hok : oidx.Ok tio.prg maxdepth) (hpos : 1 ≤ oidx.curdepth)
    (hdepth : depth + oidx.curdepth = d) :
    (searchLoop tio P mem target coins depth oidx).idx =
      (Shape.searchLoop P w (reveal target) depth ⟨oidx.idx, oidx.curdepth⟩).idx := by
  induction depth generalizing oidx with
  | zero => rfl
  | succ depth ih =>
      have hfits : depth + 1 + oidx.curdepth ≤ 63 := by omega
      have hS : (Shape.stride P (1 <<< depth - 1) (1 <<< (depth + 1))).Valid :=
        ⟨hP, by rw [Nat.one_shiftLeft]; exact Nat.two_pow_pos _⟩
      have haddr : (Shape.stride P (1 <<< depth - 1) (1 <<< (depth + 1))).addrSize ≤ oidx.curdepth :=
        (Shape.addrSize_two_pow (Shape.stride_size hfits (by rw [hsize, hdepth]))).le
      have hval := hmem.readIncr hS tio hok hpos (by omega) (by omega) haddr coins.blinds (coins.rho depth)
      rw [searchLoop, Shape.searchLoop]
      dsimp only
      rw [ih (hok.incr _) (Nat.le_add_left 1 _) (by rw [IncrIndex.incr_curdepth]; omega),
        IncrIndex.incr_idx, IncrIndex.incr_curdepth, ← reveal_bs, reveal_below, hval]
      rfl

/-- **Binary search on shares** finds what binary search in the clear finds. -/
theorem binarySearch_refines (tio : MPCTIO 1) {A : Shape oramSize} (hA : A.Valid) {mem : Duoram RegAS}
    {w : Words} (hmem : mem.Holds oramSize w) (target : Player → RegAS) (coins : SearchCoins) {r : Value}
    (hrun : A.binarySearch w (reveal target) = some r) :
    ∃ idx, binarySearch tio A mem target coins = some idx ∧ reveal idx = r := by
  have hsize : A.size < 2 ^ 31 := by
    by_contra hbig
    rw [Shape.binarySearch_none (not_lt.mp hbig) w (reveal target)] at hrun
    cases hrun
  unfold Shape.binarySearch at hrun
  unfold binarySearch
  by_cases hzero : A.size = 0
  · rw [if_pos hzero] at hrun ⊢
    exact ⟨_, rfl, (LawfulXor.xor_self (0 : Value)).trans (Option.some.inj hrun)⟩
  rw [if_neg hzero] at hrun ⊢
  obtain ⟨d, hloop, -, hd⟩ := Shape.padLoop_spec hzero hsize
  rw [hloop] at hrun ⊢
  dsimp only at hrun ⊢
  rw [if_neg (by omega)] at hrun ⊢
  have hlt := reveal_below tio (coins.cdpf (d + 1))
    (MemRefExpl.read (Shape.pad A (2 ^ (d + 1)) maxint) (1 <<< d - 1) mem) target
  rw [hmem.read] at hlt
  rw [Nat.add_sub_cancel] at hrun ⊢
  by_cases hone : d + 1 = 1
  · rw [if_pos hone] at hrun ⊢
    refine ⟨_, rfl, ?_⟩
    rw [reveal_bitXS, hlt]
    exact Option.some.inj hrun
  · rw [if_neg hone] at hrun ⊢
    obtain ⟨oidx, hcreate, hok, hidx, hcur⟩ := IncrIndex.exists_create tio coins.keys
      (show d ≤ RDPF.maxKeyDepth from Nat.le_of_succ_le_succ hd)
    refine ⟨_, by rw [hcreate]; rfl, ?_⟩
    have hloop := searchLoop_refines tio (P := Shape.pad A (2 ^ (d + 1)) maxint) hA rfl (by omega) hmem target
      coins rfl d (hok.incr (below tio (coins.cdpf (d + 1))
        (MemRefExpl.read (Shape.pad A (2 ^ (d + 1)) maxint) (1 <<< d - 1) mem) target))
      (Nat.le_add_left 1 _) (by rw [IncrIndex.incr_curdepth, hcur])
    refine hloop.trans ?_
    rw [IncrIndex.incr_idx, IncrIndex.incr_curdepth, hidx, hcur, ← reveal_bs, hlt]
    exact Option.some.inj hrun

/-! ## The basic search -/

/-- What the parties draw for a basic search, by level. -/
structure BasicCoins where
  access : Nat → AccessCoins RegAS
  cdpf : Nat → CdpfCoins
  triple : Nat → MultTriple

/-- A public word, held by P0. -/
def publicShare (v : Value) (p : Player) : RegAS := ⟨if p.bit then 0 else v⟩

/-- The loop of `basic_binary_search` at `depth` levels to go. -/
def basicLoop (tio : MPCTIO 1) (P : Shape oramSize) (mem : Duoram RegAS) (target : Player → RegAS)
    (coins : BasicCoins) : Nat → (Player → RegAS) → Option (Player → RegAS)
  | 0, index => some index
  | depth + 1, index => do
    let (val, _) ← P.readAt tio index (coins.access depth) (mem, false)
    let lt := below tio (coins.cdpf depth) val target
    if depth + 1 > 1 then
      let uncond := publicShare (BitVec.ofNat 64 (1 <<< (depth - 1)))
      let cond := publicShare (BitVec.ofNat 64 (1 <<< depth))
      let condprod := mpcFlagmult 64 (coins.triple depth) lt cond
      basicLoop tio P mem target coins depth fun p => index p - uncond p + condprod p
    else
      let condprod := mpcFlagmult 64 (coins.triple depth) lt (publicShare 1)
      basicLoop tio P mem target coins depth fun p => index p + condprod p

/-- `Shape::basic_binary_search`. -/
def basicBinarySearch (tio : MPCTIO 1) (A : Shape oramSize) (mem : Duoram RegAS) (target : Player → RegAS)
    (coins : BasicCoins) : Option (Player → RegAS) :=
  if A.size = 0 then some fun _ => 0
  else
    let (padsize, depth) := Shape.padLoop A.size 1 0
    if depth > 31 then none
    else
      let P := Shape.pad A padsize maxint
      basicLoop tio P mem target coins depth (publicShare (BitVec.ofNat 64 (1 <<< (depth - 1) - 1)))

theorem reveal_publicShare (v : Value) : reveal (publicShare v) = v := reveal_public v

/-- The index that the basic loop finds on shares is the one that it finds in the clear. -/
theorem basicLoop_refines (tio : MPCTIO 1) {P : Shape oramSize} (hP : P.Oblivious) {mem : Duoram RegAS}
    {w : Words} (hmem : mem.Holds oramSize w) (target : Player → RegAS) (coins : BasicCoins) (depth : Nat)
    (index : Player → RegAS) :
    ∃ idx, basicLoop tio P mem target coins depth index = some idx ∧
      reveal idx = Shape.basicLoop P w (reveal target) depth (reveal index) := by
  induction depth generalizing index with
  | zero => exact ⟨index, rfl, rfl⟩
  | succ depth ih =>
      obtain ⟨val, hread, hval⟩ := hmem.readAt hP tio index (coins.access depth) (Shape.index_pos_as hP index)
      have hlt := reveal_below tio (coins.cdpf depth) val target
      rw [hval] at hlt
      simp only [basicLoop, Shape.basicLoop, hread, Option.bind_eq_bind, Option.bind_some]
      by_cases hmore : depth + 1 > 1
      · rw [if_pos hmore, if_pos hmore]
        obtain ⟨idx, hrun, hidx⟩ := ih fun p => index p -
          publicShare (BitVec.ofNat 64 (1 <<< (depth - 1))) p +
            mpcFlagmult 64 (coins.triple depth) (below tio (coins.cdpf depth) val target)
              (publicShare (BitVec.ofNat 64 (1 <<< depth))) p
        refine ⟨idx, hrun, hidx.trans ?_⟩
        rw [reveal_add, reveal_sub, reveal_flagmult, reveal_publicShare, reveal_publicShare, hlt]
      · rw [if_neg hmore, if_neg hmore]
        obtain ⟨idx, hrun, hidx⟩ := ih fun p => index p +
          mpcFlagmult 64 (coins.triple depth) (below tio (coins.cdpf depth) val target) (publicShare 1) p
        refine ⟨idx, hrun, hidx.trans ?_⟩
        rw [reveal_add, reveal_flagmult, reveal_publicShare, hlt]

/-- The basic search on shares finds what the one in the clear finds. -/
theorem basicBinarySearch_refines (tio : MPCTIO 1) {A : Shape oramSize} (hA : A.Valid) {mem : Duoram RegAS}
    {w : Words} (hmem : mem.Holds oramSize w) (target : Player → RegAS) (coins : BasicCoins) {r : Value}
    (hrun : A.basicBinarySearch w (reveal target) = some r) :
    ∃ idx, basicBinarySearch tio A mem target coins = some idx ∧ reveal idx = r := by
  have hsize : A.size < 2 ^ 30 := by
    by_contra hbig
    rw [Shape.basicBinarySearch_none (not_lt.mp hbig) w (reveal target)] at hrun
    cases hrun
  unfold Shape.basicBinarySearch at hrun
  unfold basicBinarySearch
  by_cases hzero : A.size = 0
  · rw [if_pos hzero] at hrun ⊢
    exact ⟨_, rfl, reveal_zero.trans (Option.some.inj hrun)⟩
  rw [if_neg hzero] at hrun ⊢
  obtain ⟨d, hloop, -, hd⟩ := Shape.padLoop_spec hzero hsize
  rw [hloop] at hrun ⊢
  dsimp only at hrun ⊢
  rw [if_neg (show ¬d + 1 > RDPF.maxKeyDepth from not_lt.mpr hd)] at hrun
  rw [if_neg (by omega)]
  have hP : (Shape.pad A (2 ^ (d + 1)) maxint).Oblivious := by
    refine ⟨hA, ?_, ?_⟩
    · show 2 ≤ 2 ^ (d + 1)
      exact Nat.le_self_pow (Nat.succ_ne_zero d) 2
    · rw [Shape.addrSize_two_pow (show (Shape.pad A (2 ^ (d + 1)) maxint).size = 2 ^ (d + 1) from rfl)]
      exact hd
  obtain ⟨idx, hshares, hidx⟩ := basicLoop_refines tio hP hmem target coins (d + 1)
    (publicShare (BitVec.ofNat 64 (1 <<< (d + 1 - 1) - 1)))
  refine ⟨idx, hshares, hidx.trans ?_⟩
  rw [reveal_publicShare]
  exact Option.some.inj hrun

/-! ## Both searches -/

/-- **Both binary searches of the three parties** end, whatever they draw, with shares of the least index
that holds a value not below the target, or of the size: on any consistent memory, through any shape of
fewer than `2 ^ 30` sorted values. -/
theorem binary_searches_correct (tio : MPCTIO 1) {A : Shape oramSize} (hA : A.Valid)
    (hsize : A.size < 2 ^ 30) {mem : Duoram RegAS} (hmem : mem.Consistent oramSize)
    (hsorted : A.Sorted mem.words) (target : Player → RegAS) (htarget : reveal target ≤ maxint)
    (coins : SearchCoins) (coins' : BasicCoins) :
    ∃ (r : Nat) (idx : Player → RegXS) (idx' : Player → RegAS),
      A.IsAnswer mem.words (reveal target) r ∧ binarySearch tio A mem target coins = some idx ∧
      (reveal idx).toNat = r ∧ basicBinarySearch tio A mem target coins' = some idx' ∧
      (reveal idx').toNat = r := by
  have hholds : mem.Holds oramSize mem.words := ⟨hmem, rfl⟩
  obtain ⟨r, hr⟩ := A.exists_isAnswer mem.words (reveal target)
  have hbelow : ∀ i < r, (A.get mem.words i).toNat < (reveal target).toNat := fun i hi => hr.below hi
  have habove : ∀ i, r ≤ i → i < A.size → (reveal target).toNat ≤ (A.get mem.words i).toNat :=
    fun i hri hi => hr.above hsorted hri hi
  obtain ⟨v, hrun, hv⟩ := Shape.binarySearch_spec (hsize.trans (by decide)) hsorted.range htarget hr.1.1 hbelow habove
  obtain ⟨v', hrun', hv'⟩ := Shape.basicBinarySearch_spec hsize hsorted.range htarget hr.1.1 hbelow habove
  obtain ⟨idx, hshares, rfl⟩ := binarySearch_refines tio hA hholds target coins hrun
  obtain ⟨idx', hshares', rfl⟩ := basicBinarySearch_refines tio hA hholds target coins' hrun'
  exact ⟨r, idx, idx', hr, hshares, hv, hshares', hv'⟩

/-- Both searches for 15 among 0, 10 and 20. -/
theorem binary_searches_correct_three :
    let tio : MPCTIO 1 := ⟨⟨fun _ _ => 0, fun _ _ => 0⟩, fun _ => 1, 1⟩
    let A := (Shape.whole 3).val
    let mem : Duoram RegAS := A.init (fun i => ⟨BitVec.ofNat 64 (10 * i)⟩) Duoram.create
    let target (p : Player) : RegAS := if p.bit then ⟨-4⟩ else ⟨19⟩
    let keys : TripleCoins 1 := ⟨fun _ => 5, fun _ _ => 3, default, fun _ => halftriple (fun _ => 7) 9⟩
    let coins : SearchCoins := ⟨keys, fun _ => ⟨fun _ => 1, 2, 3, 4⟩, fun _ _ => 0, fun _ => ⟨6⟩⟩
    let coins' : BasicCoins := ⟨fun _ => ⟨keys, fun _ _ => 0, ⟨6⟩⟩, fun _ => ⟨fun _ => 1, 2, 3, 4⟩,
      fun _ => multtriple (fun _ => 7) (fun _ => 8) 9⟩
    ∃ (r : Nat) (idx : Player → RegXS) (idx' : Player → RegAS),
      A.IsAnswer mem.words (reveal target) r ∧ binarySearch tio A mem target coins = some idx ∧
      (reveal idx).toNat = r ∧ basicBinarySearch tio A mem target coins' = some idx' ∧
      (reveal idx').toNat = r := by
  intro tio A mem target keys coins coins'
  have hmem : mem.Consistent 3 := fun addr haddr =>
    Shape.init_consistentAt _ _ (Duoram.create_consistent addr haddr)
  have hwords : ∀ i < 3, A.get mem.words i = BitVec.ofNat 64 (10 * i) := by decide
  have hsize : A.size = 3 := Shape.whole_size 3
  have hA : A.Valid := trivial
  apply binary_searches_correct tio hA (by decide) hmem _ target (by decide)
  constructor
  · rw [hsize]
    decide
  · rw [hsize]
    intro i j hij hj
    rw [hwords i (by omega), hwords j hj, BitVec.toNat_ofNat, BitVec.toNat_ofNat,
      Nat.mod_eq_of_lt (by omega), Nat.mod_eq_of_lt (by omega)]
    exact Nat.mul_le_mul_left 10 hij

end Shared

end Prac
