import Prac.RdpfKeygen

/-!
# Streaming and parallel evaluation (`rdpf.hpp`, `rdpf.tcc`)

* `RDPFTuple` — RDPFs evaluated in lock step: an `RDPF` alone, the two of an `RDPFPair` or
  `RDPF2of3`, the three of an `RDPFTriple`.
* `StreamEval` — leaves in index order along a path that is repaired from one index to the next;
  `StreamEval.Inv.next_step` says that it yields the leaves of the tree, or of the saved expansion.
* `ParallelEval.reduce` — the evaluation dealt to any number of threads; `reduce_inv` turns it into
  one loop over the leaves.
-/

namespace Prac

open Loop

variable {WIDTH n : Nat}

/-- `ADDRESS_MAX_BITS`. -/
def addressMaxBits : Nat := 32

/-- The mask of the `depth` low bits of an `address_t`. -/
def indexMask (depth : Nat) : Nat :=
  if depth < addressMaxBits then 1 <<< depth - 1 else 2 ^ addressMaxBits - 1

theorem and_indexMask {depth : Nat} (h : depth ≤ addressMaxBits) (x : Nat) :
    x &&& indexMask depth = x % 2 ^ depth := by
  unfold indexMask
  split
  · rw [Nat.one_shiftLeft, Nat.and_two_pow_sub_one_eq_mod]
  · have hdepth : depth = addressMaxBits := by omega
    rw [hdepth, Nat.and_two_pow_sub_one_eq_mod]

/-- RDPFs that are evaluated in lock step. -/
abbrev RDPFTuple (n WIDTH : Nat) := Fin n → RDPF WIDTH

/-- One leaf of each RDPF of a tuple. -/
abbrev LeafTuple (n WIDTH : Nat) := Fin n → LeafNode WIDTH

namespace RDPFTuple

/-- `get_seed`. -/
def getSeed (rdpf : RDPFTuple n WIDTH) : Fin n → DPFnode := fun k => (rdpf k).seed

/-- `descend`. -/
def descend (prg : PRG WIDTH) (rdpf : RDPFTuple n WIDTH) (parent : Fin n → DPFnode)
    (parentdepth : Nat) (whichchild : Bool) : Fin n → DPFnode :=
  fun k => (rdpf k).descend prg.node (parent k) parentdepth whichchild

/-- `descend_to_leaf`. -/
def descendToLeaf (prg : PRG WIDTH) (rdpf : RDPFTuple n WIDTH) (parent : Fin n → DPFnode)
    (parentdepth : Nat) (whichchild : Bool) : LeafTuple n WIDTH :=
  fun k => (rdpf k).descendToLeaf prg (parent k) parentdepth whichchild

/-- `get_expansion`. -/
def getExpansion (rdpf : RDPFTuple n WIDTH) (index : Nat) : LeafTuple n WIDTH :=
  fun k => ((rdpf k).li.getD ((rdpf k).maxdepth - (rdpf k).curdepth) default).expansion.getD index 0

variable [NeZero n]

/-- `depth`: that of the first RDPF. -/
def depth (rdpf : RDPFTuple n WIDTH) : Nat := (rdpf 0).curdepth

/-- `has_expansion`: whether the first RDPF has one. -/
def hasExpansion (rdpf : RDPFTuple n WIDTH) : Bool :=
  ((rdpf 0).li.getD ((rdpf 0).maxdepth - (rdpf 0).curdepth) default).expansion.length > 0

/-- The leaves of the tuple at one index. -/
def leafAt (prg : PRG WIDTH) (rdpf : RDPFTuple n WIDTH) (index : Nat) : LeafTuple n WIDTH :=
  fun k => (rdpf k).leafAt prg rdpf.depth index

/-- The leaves that a stream reads: those of a saved expansion if it is to be used. -/
def streamLeaf (prg : PRG WIDTH) (rdpf : RDPFTuple n WIDTH) (useExpansion : Bool) (index : Nat) :
    LeafTuple n WIDTH :=
  if useExpansion && rdpf.hasExpansion then rdpf.getExpansion index else rdpf.leafAt prg index

/-- The RDPFs have one depth, which an address can hold, and a saved expansion holds their leaves. -/
structure Ready (prg : PRG WIDTH) (rdpf : RDPFTuple n WIDTH) : Prop where
  pos : 0 < rdpf.depth
  le : rdpf.depth ≤ addressMaxBits
  expansion : rdpf.hasExpansion = true →
    ∀ i < 2 ^ rdpf.depth, rdpf.getExpansion i = rdpf.leafAt prg i

theorem Ready.streamLeaf {prg : PRG WIDTH} {rdpf : RDPFTuple n WIDTH} (h : rdpf.Ready prg)
    (useExpansion : Bool) {i : Nat} (hi : i < 2 ^ rdpf.depth) :
    rdpf.streamLeaf prg useExpansion i = rdpf.leafAt prg i := by
  unfold RDPFTuple.streamLeaf
  split
  · rename_i hexp
    exact h.expansion (Bool.and_eq_true _ _ ▸ hexp).2 i hi
  · rfl

end RDPFTuple

variable [NeZero n]

/-! ## Streaming evaluation -/

/-- `StreamEval`. -/
structure StreamEval (n WIDTH : Nat) where
  rdpf : RDPFTuple n WIDTH
  useExpansion : Bool
  depth : Nat
  counterXorOffset : Nat
  indexmask : Nat
  pathindex : Nat
  nextindex : Nat
  path : Nat → Fin n → DPFnode

namespace StreamEval

/-- The constructor `StreamEval::StreamEval`. -/
def create (prg : PRG WIDTH) (rdpf : RDPFTuple n WIDTH) (start xorOffset : Nat)
    (useExpansion : Bool) : StreamEval n WIDTH :=
  let depth := rdpf.depth
  let indexmask := indexMask depth
  let start := start &&& indexmask
  let counterXorOffset := xorOffset &&& indexmask
  let path :=
    if useExpansion && rdpf.hasExpansion then 0
    else
      forRange 1 depth (fun i path =>
        let dir := start.testBit (depth - i)
        let xorOffsetBit := counterXorOffset.testBit (depth - i)
        Function.update path i (rdpf.descend prg (path (i - 1)) (i - 1) (dir ^^ xorOffsetBit)))
        (Function.update 0 0 rdpf.getSeed)
  { rdpf, useExpansion, depth, counterXorOffset, indexmask, path
    pathindex := start, nextindex := start }

/-- The path of `next()`: the nodes below the highest bit that has changed are computed again.
`index_xor` is the change of the index with the low bit stripped. -/
def repairPath (prg : PRG WIDTH) (s : StreamEval n WIDTH) : Nat → Fin n → DPFnode :=
  let indexXor := (s.nextindex ^^^ s.pathindex) / 2 * 2
  let howMany1Bits := Bits.popcount 32 indexXor
  if howMany1Bits > 0 then
    let topChangedBit := s.nextindex.testBit howMany1Bits
    let xorOffsetBit := s.counterXorOffset.testBit howMany1Bits
    let path := Function.update s.path (s.depth - howMany1Bits)
      (s.rdpf.descend prg (s.path (s.depth - howMany1Bits - 1)) (s.depth - howMany1Bits - 1)
        (topChangedBit ^^ xorOffsetBit))
    forRange (s.depth - howMany1Bits) (s.depth - 1) (fun i path =>
      let xorOffsetBit := s.counterXorOffset.testBit (s.depth - i - 1)
      Function.update path (i + 1) (s.rdpf.descend prg (path i) i xorOffsetBit)) path
  else s.path

/-- `StreamEval::next`. -/
def next (prg : PRG WIDTH) (s : StreamEval n WIDTH) : LeafTuple n WIDTH × StreamEval n WIDTH :=
  if s.useExpansion && s.rdpf.hasExpansion then
    (s.rdpf.getExpansion (s.nextindex ^^^ s.counterXorOffset),
      { s with nextindex := (s.nextindex + 1) &&& s.indexmask })
  else
    let path := s.repairPath prg
    let xorOffsetBit := s.counterXorOffset.testBit 0
    let leaf := s.rdpf.descendToLeaf prg (path (s.depth - 1)) (s.depth - 1)
      (s.nextindex.testBit 0 ^^ xorOffsetBit)
    (leaf, { s with
      path := path
      pathindex := s.nextindex
      nextindex := (s.nextindex + 1) &&& s.indexmask })

end StreamEval

/-! ## Parallel evaluation -/

/-- One thread of `reduce`: `threadsize` leaves from `start + threadstart` on are processed and
added up. -/
def ParallelEval.thread {V σ : Type} [Add V] (prg : PRG WIDTH) (rdpf : RDPFTuple n WIDTH)
    (start xorOffset threadstart threadsize : Nat) (init : V)
    (process : Nat → LeafTuple n WIDTH → σ → V × σ) (s : σ) : V × σ :=
  let indexmask := indexMask rdpf.depth
  let ev := StreamEval.create prg rdpf ((start + threadstart) &&& indexmask) xorOffset true
  (forRange 0 threadsize (fun x (ev, accum, s) =>
    let (leaf, ev) := StreamEval.next prg ev
    let (v, s) := process ((threadstart + x) &&& indexmask) leaf s
    (ev, accum + v, s)) (ev, init, s)).2

/-- `ParallelEval::reduce`.  What `process` does to the memory is its state `σ`; the threads write
to different cells and are run in order. -/
def ParallelEval.reduce {V σ : Type} [Add V] (prg : PRG WIDTH) (rdpf : RDPFTuple n WIDTH)
    (start xorOffset numEvals : Nat) (numThreads : ℕ+) (init : V)
    (process : Nat → LeafTuple n WIDTH → σ → V × σ) (s : σ) : V × σ :=
  let indexmask := indexMask rdpf.depth
  (forRange 0 numThreads (fun threadNum (threadstart, total, s) =>
    let threadsize := chunkSize numEvals numThreads threadNum
    let (accum, s) := thread prg rdpf start xorOffset threadstart threadsize init process s
    ((threadstart + threadsize) &&& indexmask, total + accum, s)) (0, init, s)).2

/-! ## The stream -/

namespace StreamEval

variable {prg : PRG WIDTH} {rdpf : RDPFTuple n WIDTH} {off : Nat}

/-- The nodes on the path to leaf `x`. -/
def OnPath (prg : PRG WIDTH) (rdpf : RDPFTuple n WIDTH) (x levels : Nat)
    (path : Nat → Fin n → DPFnode) : Prop :=
  ∀ i < levels, ∀ k, path i k = (rdpf k).nodeAt prg.node i (x >>> (rdpf.depth - i))

/-- One more node of the path. -/
theorem OnPath.push {x i : Nat} {path : Nat → Fin n → DPFnode} (h : OnPath prg rdpf x (i + 1) path)
    (hi : i < rdpf.depth) (b : Bool) (hb : b = x.testBit (rdpf.depth - i - 1)) :
    OnPath prg rdpf x (i + 2)
      (Function.update path (i + 1) (rdpf.descend prg (path i) i b)) := by
  intro j hj k
  by_cases hlast : j = i + 1
  · subst hlast
    rw [Function.update_self, RDPFTuple.descend, h i (Nat.lt_succ_self i) k, hb,
      DPF.nodeAt_shiftRight _ _ _ hi]
  · rw [Function.update_of_ne hlast]
    exact h j (by omega) k

/-- Before each call: `m` is the index of the next leaf, and unless there is an expansion the path
leads to the last leaf, or at first to `m` itself. -/
structure Inv (prg : PRG WIDTH) (rdpf : RDPFTuple n WIDTH) (off : Nat) (useExpansion : Bool)
    (m : Nat) (s : StreamEval n WIDTH) : Prop where
  rdpf_eq : s.rdpf = rdpf
  use_eq : s.useExpansion = useExpansion
  depth_eq : s.depth = rdpf.depth
  off_eq : s.counterXorOffset = off
  mask_eq : s.indexmask = indexMask rdpf.depth
  next_eq : s.nextindex = m
  on_path : (useExpansion && rdpf.hasExpansion) = false →
    (m = s.pathindex ∨ m = (s.pathindex + 1) % 2 ^ rdpf.depth) ∧ s.pathindex < 2 ^ rdpf.depth ∧
      OnPath prg rdpf (s.pathindex ^^^ off) rdpf.depth s.path

theorem create_inv (prg : PRG WIDTH) (hpos : 0 < rdpf.depth) (hle : rdpf.depth ≤ addressMaxBits)
    (start xorOffset : Nat) (useExpansion : Bool) :
    Inv prg rdpf (xorOffset % 2 ^ rdpf.depth) useExpansion (start % 2 ^ rdpf.depth)
      (create prg rdpf start xorOffset useExpansion) where
  rdpf_eq := rfl
  use_eq := rfl
  depth_eq := rfl
  off_eq := and_indexMask hle xorOffset
  mask_eq := rfl
  next_eq := and_indexMask hle start
  on_path hexp := by
    refine ⟨Or.inl (and_indexMask hle start).symm, ?_, ?_⟩
    · show start &&& indexMask rdpf.depth < _
      rw [and_indexMask hle]
      exact Nat.mod_lt _ (Nat.two_pow_pos _)
    · unfold create
      simp only [hexp, Bool.false_eq_true, if_false, and_indexMask hle]
      refine forRange_inv (fun i path => OnPath prg rdpf _ i path) hpos ?_ ?_
      · intro i hi k
        obtain rfl : i = 0 := by omega
        rfl
      · intro i path hi0 hi hpath
        obtain ⟨i, rfl⟩ : ∃ j, i = j + 1 := ⟨i - 1, by omega⟩
        refine hpath.push (by omega) _ ?_
        rw [Nat.testBit_xor, Nat.sub_sub]

/-- After the repair the path leads to the next leaf. -/
theorem Inv.repairPath {useExpansion : Bool} {m : Nat} {s : StreamEval n WIDTH}
    (h : Inv prg rdpf off useExpansion m s) (hpos : 0 < rdpf.depth)
    (hle : rdpf.depth ≤ addressMaxBits) (hexp : (useExpansion && rdpf.hasExpansion) = false) :
    OnPath prg rdpf (m ^^^ off) rdpf.depth (s.repairPath prg) := by
  obtain ⟨hm, hlt, hpath⟩ := h.on_path hexp
  obtain ⟨hk, hsame, hzero⟩ := Bits.counter_carry_strip (n := 32) hpos hle hlt hm
  simp only [StreamEval.repairPath, h.rdpf_eq, h.depth_eq, h.off_eq, h.next_eq]
  generalize Bits.popcount 32 ((m ^^^ s.pathindex) / 2 * 2) = ones at hk hsame hzero
  -- the levels above the carry are those of the last leaf
  have hkeep : OnPath prg rdpf (m ^^^ off) (rdpf.depth - ones) s.path := by
    intro i hi k
    have hsplit : rdpf.depth - i = ones + 1 + (rdpf.depth - i - (ones + 1)) := by omega
    have hprefix : m >>> (rdpf.depth - i) = s.pathindex >>> (rdpf.depth - i) := by
      rw [hsplit, Nat.shiftRight_add, hsame, ← Nat.shiftRight_add]
    rw [hpath i (by omega) k, Nat.shiftRight_xor_distrib, Nat.shiftRight_xor_distrib, hprefix]
  by_cases hones : 0 < ones
  · rw [if_pos hones]
    have hdepth : rdpf.depth - 1 + 1 = rdpf.depth := by omega
    have htop : rdpf.depth - ones - 1 + 1 = rdpf.depth - ones := by omega
    suffices hloop : OnPath prg rdpf (m ^^^ off) (rdpf.depth - 1 + 1) _ by rwa [hdepth] at hloop
    refine forRange_inv (fun i path => OnPath prg rdpf (m ^^^ off) (i + 1) path) (by omega) ?_ ?_
    · have hpush := OnPath.push (i := rdpf.depth - ones - 1) (by rwa [htop]) (by omega)
        (m.testBit ones ^^ off.testBit ones) (by
          rw [Nat.testBit_xor, show rdpf.depth - (rdpf.depth - ones - 1) - 1 = ones by omega])
      rwa [htop, show rdpf.depth - ones - 1 + 2 = rdpf.depth - ones + 1 by omega] at hpush
    · intro i path hlow hi hpath'
      refine hpath'.push (by omega) _ ?_
      rw [Nat.testBit_xor, hzero _ (by omega), Bool.false_xor]
  · obtain rfl : ones = 0 := by omega
    simpa using hkeep

theorem next_walk (prg : PRG WIDTH) {s : StreamEval n WIDTH}
    (hexp : ¬(s.useExpansion && s.rdpf.hasExpansion) = true) :
    s.next prg =
      (s.rdpf.descendToLeaf prg (s.repairPath prg (s.depth - 1)) (s.depth - 1)
        (s.nextindex.testBit 0 ^^ s.counterXorOffset.testBit 0),
      { s with
        path := s.repairPath prg
        pathindex := s.nextindex
        nextindex := (s.nextindex + 1) &&& s.indexmask }) := by
  unfold StreamEval.next
  rw [if_neg hexp]

/-- **The stream**: each call yields the leaf at the next index, XORed with the offset. -/
theorem Inv.next_step {useExpansion : Bool} {m : Nat} {s : StreamEval n WIDTH}
    (h : Inv prg rdpf off useExpansion m s) (hpos : 0 < rdpf.depth)
    (hle : rdpf.depth ≤ addressMaxBits) (hm : m < 2 ^ rdpf.depth) :
    (s.next prg).1 = rdpf.streamLeaf prg useExpansion (m ^^^ off) ∧
      Inv prg rdpf off useExpansion ((m + 1) % 2 ^ rdpf.depth) (s.next prg).2 := by
  have hnext : (s.nextindex + 1) &&& s.indexmask = (m + 1) % 2 ^ rdpf.depth := by
    rw [h.next_eq, h.mask_eq, and_indexMask hle]
  by_cases hexp : (useExpansion && rdpf.hasExpansion) = true
  · have hexp' : (s.useExpansion && s.rdpf.hasExpansion) = true := by
      rwa [h.use_eq, h.rdpf_eq]
    unfold StreamEval.next
    rw [if_pos hexp', hnext]
    refine ⟨?_, ⟨h.rdpf_eq, h.use_eq, h.depth_eq, h.off_eq, h.mask_eq, rfl, ?_⟩⟩
    · show s.rdpf.getExpansion (s.nextindex ^^^ s.counterXorOffset) = _
      rw [h.rdpf_eq, h.next_eq, h.off_eq, RDPFTuple.streamLeaf, if_pos hexp]
    · intro hno
      rw [hexp] at hno
      exact absurd hno (by decide)
  · have hexp' : ¬(s.useExpansion && s.rdpf.hasExpansion) = true := by
      rwa [h.use_eq, h.rdpf_eq]
    have hpath := h.repairPath hpos hle (by simpa using hexp)
    rw [next_walk prg hexp', hnext]
    refine ⟨?_, ⟨h.rdpf_eq, h.use_eq, h.depth_eq, h.off_eq, h.mask_eq, rfl, fun _ => ?_⟩⟩
    · rw [RDPFTuple.streamLeaf, if_neg hexp]
      funext k
      show (s.rdpf k).descendToLeaf prg (s.repairPath prg (s.depth - 1) k) (s.depth - 1) _ = _
      have hlast : rdpf.depth - (rdpf.depth - 1) = 1 := by omega
      rw [h.rdpf_eq, h.depth_eq, h.next_eq, h.off_eq,
        hpath _ (Nat.sub_lt hpos Nat.one_pos) k, hlast, ← Nat.testBit_xor,
        Bits.testBit_eq_beq, Nat.shiftRight_zero, Nat.shiftRight_one]
      rfl
    · refine ⟨Or.inr ?_, ?_, ?_⟩ <;> dsimp only
      · rw [h.next_eq]
      · rwa [h.next_eq]
      · rwa [h.next_eq]

end StreamEval

/-! ## The parallel loop -/

section ParallelEval

variable {prg : PRG WIDTH} {rdpf : RDPFTuple n WIDTH} {V σ : Type} [AddMonoid V]
  {start xorOffset numEvals : Nat} {process : Nat → LeafTuple n WIDTH → σ → V × σ}

/-- The leaves that evaluation number `i` reads. -/
def streamedLeaf (prg : PRG WIDTH) (rdpf : RDPFTuple n WIDTH) (start xorOffset i : Nat) :
    LeafTuple n WIDTH :=
  rdpf.streamLeaf prg true (((start + i) % 2 ^ rdpf.depth) ^^^ (xorOffset % 2 ^ rdpf.depth))

/-- The leaves of the tree that evaluation number `i` is given. -/
def evalLeaf (prg : PRG WIDTH) (rdpf : RDPFTuple n WIDTH) (start xorOffset i : Nat) :
    LeafTuple n WIDTH :=
  rdpf.leafAt prg (((start + i) % 2 ^ rdpf.depth) ^^^ (xorOffset % 2 ^ rdpf.depth))

theorem RDPFTuple.Ready.streamedLeaf (hready : rdpf.Ready prg) (start xorOffset i : Nat) :
    streamedLeaf prg rdpf start xorOffset i = evalLeaf prg rdpf start xorOffset i :=
  hready.streamLeaf true (Nat.xor_lt_two_pow (Nat.mod_lt _ (Nat.two_pow_pos _))
    (Nat.mod_lt _ (Nat.two_pow_pos _)))

/-- One thread carries an invariant on the running total over its range. -/
theorem ParallelEval.thread_inv (hpos : 0 < rdpf.depth) (hle : rdpf.depth ≤ addressMaxBits)
    (hn : numEvals ≤ 2 ^ rdpf.depth) {lo size : Nat} (hlo : lo + size ≤ numEvals)
    (P : Nat → V → σ → Prop) {total : V} {s : σ} (h0 : P lo total s)
    (step : ∀ i < numEvals, ∀ v s, P i v s →
      P (i + 1) (v + (process i (streamedLeaf prg rdpf start xorOffset i) s).1)
        (process i (streamedLeaf prg rdpf start xorOffset i) s).2) :
    P (lo + size)
      (total + (thread prg rdpf start xorOffset (lo % 2 ^ rdpf.depth) size 0 process s).1)
      (thread prg rdpf start xorOffset (lo % 2 ^ rdpf.depth) size 0 process s).2 := by
  dsimp only [thread]
  generalize hst : (forRange 0 size _ _ : StreamEval n WIDTH × V × σ) = st
  suffices h : StreamEval.Inv prg rdpf (xorOffset % 2 ^ rdpf.depth) true
      ((start + (lo + size)) % 2 ^ rdpf.depth) st.1 ∧ P (lo + size) (total + st.2.1) st.2.2 from h.2
  rw [← hst]
  refine forRange_inv (fun x (st : StreamEval n WIDTH × V × σ) =>
    StreamEval.Inv prg rdpf (xorOffset % 2 ^ rdpf.depth) true
      ((start + (lo + x)) % 2 ^ rdpf.depth) st.1 ∧ P (lo + x) (total + st.2.1) st.2.2)
    (Nat.zero_le size) ⟨?_, ?_⟩ ?_
  · have h := StreamEval.create_inv prg hpos hle
      ((start + lo % 2 ^ rdpf.depth) &&& indexMask rdpf.depth) xorOffset true
    rw [and_indexMask hle, Nat.mod_mod, Nat.add_mod_mod] at h
    simpa only [and_indexMask hle, Nat.add_mod_mod, Nat.add_zero] using h
  · simpa using h0
  · rintro x ⟨ev, accum, s⟩ - hx ⟨hev, hP⟩
    have hpow := Nat.two_pow_pos rdpf.depth
    obtain ⟨hleaf, hev'⟩ := hev.next_step hpos hle (Nat.mod_lt _ hpow)
    have hlt : lo + x < 2 ^ rdpf.depth := by omega
    have hindex : (lo % 2 ^ rdpf.depth + x) &&& indexMask rdpf.depth = lo + x := by
      rw [and_indexMask hle, Nat.mod_add_mod, Nat.mod_eq_of_lt hlt]
    refine ⟨?_, ?_⟩
    · rwa [Nat.mod_add_mod] at hev'
    · have hnext := step (lo + x) (by omega) _ _ hP
      simp only [hindex, hleaf]
      simpa only [add_assoc, streamedLeaf] using hnext

/-- **The parallel loop**: an invariant on the total and the state that every evaluation preserves,
in index order, holds of the result, however many threads share the work. -/
theorem ParallelEval.reduce_streamed (hpos : 0 < rdpf.depth) (hle : rdpf.depth ≤ addressMaxBits)
    (hn : numEvals ≤ 2 ^ rdpf.depth) (numThreads : ℕ+) (P : Nat → V → σ → Prop) {s : σ} (h0 : P 0 0 s)
    (step : ∀ i < numEvals, ∀ v s, P i v s →
      P (i + 1) (v + (process i (streamedLeaf prg rdpf start xorOffset i) s).1)
        (process i (streamedLeaf prg rdpf start xorOffset i) s).2) :
    P numEvals (reduce prg rdpf start xorOffset numEvals numThreads 0 process s).1
      (reduce prg rdpf start xorOffset numEvals numThreads 0 process s).2 := by
  dsimp only [reduce]
  generalize hst : (forRange 0 numThreads _ _ : Nat × V × σ) = st
  suffices h : P (numThreads * (numEvals / numThreads) + min ↑numThreads (numEvals % numThreads))
      st.2.1 st.2.2 by
    rwa [chunkStart_last numThreads.pos] at h
  rw [← hst]
  refine (forRange_inv (fun t (st : Nat × V × σ) =>
    st.1 = (t * (numEvals / numThreads) + min t (numEvals % numThreads)) % 2 ^ rdpf.depth ∧
      P (t * (numEvals / numThreads) + min t (numEvals % numThreads)) st.2.1 st.2.2)
    (Nat.zero_le _) ⟨by simp, by simpa using h0⟩ ?_).2
  rintro t ⟨threadstart, total, s⟩ - ht ⟨rfl, hP⟩
  have hsize := chunkStart_succ numEvals numThreads t
  refine ⟨?_, ?_⟩
  · show _ &&& indexMask rdpf.depth = _
    rw [and_indexMask hle, Nat.mod_add_mod, hsize]
  · rw [← hsize]
    refine thread_inv hpos hle hn ?_ P hP step
    rw [hsize]
    exact chunkStart_le ht

/-- The loop over RDPFs that can be evaluated: the leaves are those of the tree. -/
theorem ParallelEval.reduce_inv (hready : rdpf.Ready prg) (hn : numEvals ≤ 2 ^ rdpf.depth)
    (numThreads : ℕ+) (P : Nat → V → σ → Prop) {s : σ} (h0 : P 0 0 s)
    (step : ∀ i < numEvals, ∀ v s, P i v s →
      P (i + 1) (v + (process i (evalLeaf prg rdpf start xorOffset i) s).1)
        (process i (evalLeaf prg rdpf start xorOffset i) s).2) :
    P numEvals (reduce prg rdpf start xorOffset numEvals numThreads 0 process s).1
      (reduce prg rdpf start xorOffset numEvals numThreads 0 process s).2 := by
  refine reduce_streamed hready.pos hready.le hn numThreads P h0 fun i hi v s hP => ?_
  rw [hready.streamedLeaf]
  exact step i hi v s hP

end ParallelEval

end Prac
