import Prac.DuoramKeys
import Mathlib.Tactic.Ring
import Mathlib.Algebra.BigOperators.Ring.Finset

/-!
# Oblivious reads are correct

* `OblivIndex.Valid.unitShare_add` — the opened offset aligns the unit vector with the index.
* `oblivious_read_correct` — the shares that a read returns add up to the entry at the index.
-/

namespace Prac

variable {T U : Type} [Register T] [SharedIndex U] {oramSize WIDTH : Nat}

/-- Two of the three RDPFs of a triple, the first one among them. -/
theorem RDPFTriple.twoOf3_ready {prg : PRG WIDTH} {dt : RDPFTriple WIDTH} (h : dt.dpf.Ready prg)
    (which1 : Fin 3) : (dt.twoOf3 0 which1).Ready prg where
  pos := h.pos
  le := h.le
  expansion hexp i hi := by
    have hall := h.expansion hexp i hi
    funext k
    refine Fin.cases ?_ (fun k => ?_) k
    · exact congrFun hall 0
    · obtain rfl : k = 0 := Subsingleton.elim _ _
      exact congrFun hall which1

/-! ## The view through a shape -/

/-- The entry that an index of a shape refers to. -/
def Shape.reconstruct (shape : Shape oramSize) (mem : Duoram T) (idx : Nat) : T :=
  (shape.getComp .p0 (mem.comp .p0) idx).1 + (shape.getComp .p1 (mem.comp .p1) idx).1

/-- What the parties see through a shape is consistent, at pad values too. -/
theorem Duoram.Consistent.view {mem : Duoram T} (h : mem.Consistent oramSize)
    {shape : Shape oramSize} (hshape : shape.Valid) {i : Nat} (hi : i < shape.size) :
    (∀ p, (shape.getComp p (mem.comp p) i).2.2 =
      (shape.getComp p.peer (mem.comp p.peer) i).1 +
        (shape.getComp p.peer (mem.comp p.peer) i).2.1) ∧
      (shape.getServer mem.server i).1 = (shape.getComp .p0 (mem.comp .p0) i).2.1 ∧
      (shape.getServer mem.server i).2 = (shape.getComp .p1 (mem.comp .p1) i).2.1 := by
  unfold Shape.getComp Shape.getServer
  cases hcell : shape.cell i with
  | mem addr =>
      have hat := h addr (hshape.cell_lt hi hcell)
      exact ⟨hat.peer, hat.p0Blind, hat.p1Blind⟩
  | pad padval =>
      refine ⟨fun p => ?_, rfl, rfl⟩
      cases p
      · exact (add_zero _).symm
      · exact (add_zero _).symm

/-! ## The sums of a read -/

namespace MemRefS

/-- The DPF input of evaluation number `i`. -/
def hitIndex (U : Type) [SharedIndex U] (depth indshift i : Nat) : Nat :=
  ((SharedIndex.ifRegAS U indshift + i) % 2 ^ depth) ^^^ (SharedIndex.ifRegXS U indshift % 2 ^ depth)

theorem hitIndex_lt (U : Type) [SharedIndex U] (depth indshift i : Nat) :
    hitIndex U depth indshift i < 2 ^ depth :=
  Nat.xor_lt_two_pow (Nat.mod_lt _ (Nat.two_pow_pos depth)) (Nat.mod_lt _ (Nat.two_pow_pos depth))

/-- The leaf of an RDPF that evaluation number `i` is given. -/
def hitLeaf (U : Type) [SharedIndex U] (prg : PRG WIDTH) (depth indshift i : Nat) (d : RDPF WIDTH) :
    LeafNode WIDTH :=
  d.leafAt prg depth (hitIndex U depth indshift i)

/-- The unit-vector share that evaluation number `i` reads off an RDPF. -/
def hitUnit (T U : Type) [Register T] [SharedIndex U] (prg : PRG WIDTH) (depth indshift i : Nat)
    (d : RDPF WIDTH) : T :=
  Register.unit d (hitLeaf U prg depth indshift i d)

theorem hitUnit_copy {prg : PRG WIDTH} {depth indshift i : Nat} {d d' : RDPF WIDTH}
    (h : d.IsCopy d') :
    hitUnit T U prg depth indshift i d = hitUnit T U prg depth indshift i d' := by
  rw [hitUnit, hitUnit, hitLeaf, hitLeaf, h.leafAt, Register.unit_copy h]

theorem readComp_eq {prg : PRG WIDTH} {shape : Shape oramSize} {dt : RDPFTriple WIDTH}
    (hready : dt.dpf.Ready prg) (hsize : shape.size ≤ 2 ^ dt.depth) (nthreads : ℕ+) (p : Player)
    (indshift : Nat) (m : CompDuoram T) :
    readComp U prg nthreads shape p dt indshift m = ∑ i ∈ Finset.range shape.size,
      (((shape.getComp p m i).1 + (shape.getComp p m i).2.2) *
          hitUnit T U prg dt.depth indshift i (dt.dpf 0) -
        (shape.getComp p m i).2.1 *
          (hitUnit T U prg dt.depth indshift i (dt.dpf (if p.bit then 1 else 2)) -
            hitUnit T U prg dt.depth indshift i (dt.dpf 0))) := by
  unfold readComp
  refine ParallelEval.reduce_inv (RDPFTriple.twoOf3_ready hready _) hsize nthreads
    (fun n v _ => v = ∑ i ∈ Finset.range n,
      (((shape.getComp p m i).1 + (shape.getComp p m i).2.2) *
          hitUnit T U prg dt.depth indshift i (dt.dpf 0) -
        (shape.getComp p m i).2.1 *
          (hitUnit T U prg dt.depth indshift i (dt.dpf (if p.bit then 1 else 2)) -
            hitUnit T U prg dt.depth indshift i (dt.dpf 0)))) (Finset.sum_range_zero _).symm ?_
  rintro i - v - rfl
  rw [Finset.sum_range_succ]
  rfl

theorem readServer_eq {prg : PRG WIDTH} {shape : Shape oramSize} {dp : RDPFPair WIDTH}
    (hready : dp.Ready prg) (hsize : shape.size ≤ 2 ^ dp.depth) (nthreads : ℕ+) (indshift : Nat)
    (m : ServerDuoram T) :
    readServer U prg nthreads shape dp indshift m =
      (∑ i ∈ Finset.range shape.size, -((shape.getServer m i).1 *
          hitUnit T U prg dp.depth indshift i (dp 1)),
        ∑ i ∈ Finset.range shape.size, -((shape.getServer m i).2 *
          hitUnit T U prg dp.depth indshift i (dp 0))) := by
  unfold readServer
  refine ParallelEval.reduce_inv hready hsize nthreads
    (fun n v _ => v = (∑ i ∈ Finset.range n, -((shape.getServer m i).1 *
          hitUnit T U prg dp.depth indshift i (dp 1)),
        ∑ i ∈ Finset.range n, -((shape.getServer m i).2 *
          hitUnit T U prg dp.depth indshift i (dp 0)))) ?_ ?_
  · rw [Finset.sum_range_zero, Finset.sum_range_zero]
    rfl
  · rintro i - v - rfl
    rw [Finset.sum_range_succ, Finset.sum_range_succ]
    rfl

end MemRefS

/-! ## What the opened offset does -/

namespace OblivIndex

/-- The index that the two players share. -/
def index (ox : OblivIndex U WIDTH) (depth : Nat) : Nat :=
  (SharedIndex.combine (ox.idx .p0) (ox.idx .p1) depth).toNat

variable {prg : PRG WIDTH} {depth : Nat} {ox : OblivIndex U WIDTH}

theorem Valid.triple_depth (h : ox.Valid T prg depth) (p : Player) : (ox.dt p).depth = depth :=
  h.depth_eq p 0

theorem Valid.pair_depth (h : ox.Valid T prg depth) : ox.dp.depth = depth :=
  h.copy0.curdepth.trans (h.depth_eq .p0 1)

theorem Valid.le (h : ox.Valid T prg depth) : depth ≤ addressMaxBits := by
  rw [← h.triple_depth .p0]
  exact (h.ready .p0).le

/-- The offset that the parties open. -/
def opened (ox : OblivIndex U WIDTH) (depth : Nat) : Nat :=
  MemRefS.indshift depth (MemRefS.indoffset ox .p0) (MemRefS.indoffset ox .p1)

/-- All three parties open the same offset. -/
theorem indshift_comm (ox : OblivIndex U WIDTH) (depth : Nat) (p : Player) :
    MemRefS.indshift depth (MemRefS.indoffset ox p) (MemRefS.indoffset ox p.peer) =
      ox.opened depth := by
  cases p
  · rfl
  · exact congrArg BitVec.toNat (SharedIndex.combine_comm _ _ _)

/-- The evaluation that meets the target is the one at the shared index. -/
theorem hitIndex_eq_target_iff (ox : OblivIndex U WIDTH) {depth i : Nat} (hle : depth ≤ 64)
    (hi : i < 2 ^ depth) :
    MemRefS.hitIndex U depth (ox.opened depth) i = ox.target depth ↔ i = ox.index depth :=
  SharedIndex.hit (fun p => SharedIndex.getTarget (ox.dt p)) ox.idx depth i hle hi

/-- The unit-vector share that evaluation number `i` reads off player `p`'s `k`-th RDPF. -/
def unitShare (T : Type) [Register T] (prg : PRG WIDTH) (ox : OblivIndex U WIDTH) (depth : Nat)
    (k : Fin 3) (p : Player) (i : Nat) : T :=
  MemRefS.hitUnit T U prg depth (ox.opened depth) i ((ox.dt p).dpf k)

/-- **The offset aligns the unit vector with the index**: the shares of the `k`-th pair add up to 1 at
the shared index and to 0 elsewhere. -/
theorem Valid.unitShare_add (h : ox.Valid T prg depth) (k : Fin 3) {i : Nat} (hi : i < 2 ^ depth) :
    ox.unitShare T prg depth k .p0 i + ox.unitShare T prg depth k .p1 i =
      if i = ox.index depth then 1 else 0 := by
  have hhit := ox.hitIndex_eq_target_iff (h.le.trans (by decide)) hi
  unfold unitShare MemRefS.hitUnit MemRefS.hitLeaf
  rw [h.unit k _ (MemRefS.hitIndex_lt U _ _ _)]
  simp only [hhit]

end OblivIndex

/-- The blinds cancel in the sum of the four inner products: `a`, `b` and `c` are the unit-vector
shares of the three pairs. -/
theorem read_sum_cancel {n index : Nat} (DB BL PBD : Player → Nat → T) (S0 S1 : Nat → T)
    (a b c : Player → Nat → T) (hpeer : ∀ i < n, ∀ p, PBD p i = DB p.peer i + BL p.peer i)
    (h0 : ∀ i < n, S0 i = BL .p0 i) (h1 : ∀ i < n, S1 i = BL .p1 i)
    (ha : ∀ i < n, a .p0 i + a .p1 i = if i = index then 1 else 0)
    (hb : ∀ i < n, b .p0 i + b .p1 i = if i = index then 1 else 0)
    (hc : ∀ i < n, c .p0 i + c .p1 i = if i = index then 1 else 0) (rho : T) :
    (∑ i ∈ Finset.range n, ((DB .p0 i + PBD .p0 i) * a .p0 i - BL .p0 i * (c .p0 i - a .p0 i)) +
        (∑ i ∈ Finset.range n, -(S0 i * c .p1 i) + rho)) +
      (∑ i ∈ Finset.range n, ((DB .p1 i + PBD .p1 i) * a .p1 i - BL .p1 i * (b .p1 i - a .p1 i)) +
        (∑ i ∈ Finset.range n, -(S1 i * b .p0 i) - rho)) =
      if index < n then DB .p0 index + DB .p1 index else 0 := by
  have hterm : ∀ i ∈ Finset.range n,
      (((DB .p0 i + PBD .p0 i) * a .p0 i - BL .p0 i * (c .p0 i - a .p0 i)) + -(S0 i * c .p1 i)) +
        (((DB .p1 i + PBD .p1 i) * a .p1 i - BL .p1 i * (b .p1 i - a .p1 i)) + -(S1 i * b .p0 i)) =
      if i = index then DB .p0 i + DB .p1 i else 0 := by
    intro i hi
    have hi := Finset.mem_range.mp hi
    rw [hpeer i hi, hpeer i hi, h0 i hi, h1 i hi, eq_sub_of_add_eq' (ha i hi),
      eq_sub_of_add_eq (hb i hi), eq_sub_of_add_eq' (hc i hi), Player.peer_p0, Player.peer_p1]
    split <;> ring
  calc _ = ∑ i ∈ Finset.range n,
      ((((DB .p0 i + PBD .p0 i) * a .p0 i - BL .p0 i * (c .p0 i - a .p0 i)) + -(S0 i * c .p1 i)) +
        (((DB .p1 i + PBD .p1 i) * a .p1 i - BL .p1 i * (b .p1 i - a .p1 i)) +
          -(S1 i * b .p0 i))) := by
        simp only [Finset.sum_add_distrib]
        ring
    _ = ∑ i ∈ Finset.range n, if i = index then DB .p0 i + DB .p1 i else 0 :=
        Finset.sum_congr rfl hterm
    _ = if index < n then DB .p0 index + DB .p1 index else 0 := by
        rw [Finset.sum_ite_eq' (Finset.range n) index fun i => DB .p0 i + DB .p1 i]
        simp only [Finset.mem_range]

/-- A read on a consistent memory outside explicit-only mode. -/
theorem read_correct_of_consistent (prg : PRG WIDTH) (nthreads : Player → ℕ+) (serverThreads : ℕ+)
    {shape : Shape oramSize} (hshape : shape.Valid) {depth : Nat} (hdepth : shape.addrSize ≤ depth)
    {ox : OblivIndex U WIDTH} (hox : ox.Valid T prg depth) {mem : Duoram T}
    (hmem : mem.Consistent oramSize) (blinds : Player → Nat → T) (rho : T) :
    (MemRefS.read prg nthreads serverThreads shape ox blinds rho (mem, false)).1 .p0 +
        (MemRefS.read prg nthreads serverThreads shape ox blinds rho (mem, false)).1 .p1 =
      if ox.index depth < shape.size then shape.reconstruct mem (ox.index depth) else 0 := by
  have hsize : shape.size ≤ 2 ^ depth :=
    shape.size_le_pow_addrSize.trans (Nat.pow_le_pow_right Nat.two_pos hdepth)
  have hres p : (MemRefS.read prg nthreads serverThreads shape ox blinds rho (mem, false)).1 p =
      MemRefS.readComp U prg (nthreads p) shape p (ox.dt p)
        (MemRefS.indshift (ox.dt p).depth (MemRefS.indoffset ox p) (MemRefS.indoffset ox p.peer))
        (mem.comp p) +
      if p.bit then
        (MemRefS.readServer U prg serverThreads shape ox.dp (MemRefS.indshift ox.dp.depth
          (MemRefS.indoffset ox .p0) (MemRefS.indoffset ox .p1)) mem.server).2 - rho
      else
        (MemRefS.readServer U prg serverThreads shape ox.dp (MemRefS.indshift ox.dp.depth
          (MemRefS.indoffset ox .p0) (MemRefS.indoffset ox .p1)) mem.server).1 + rho := rfl
  have htriple p := hox.triple_depth p
  have hsizeT p : shape.size ≤ 2 ^ (ox.dt p).depth := by rwa [htriple]
  have hsizeP : shape.size ≤ 2 ^ ox.dp.depth := by rwa [hox.pair_depth]
  rw [hres, hres, MemRefS.readServer_eq hox.serverReady hsizeP,
    MemRefS.readComp_eq (hox.ready .p0) (hsizeT .p0),
    MemRefS.readComp_eq (hox.ready .p1) (hsizeT .p1)]
  simp only [htriple, hox.pair_depth, OblivIndex.indshift_comm, Player.bit_p0, Player.bit_p1,
    Bool.false_eq_true, if_false, if_true, MemRefS.hitUnit_copy hox.copy0,
    MemRefS.hitUnit_copy hox.copy1]
  have hlt {i : Nat} (hi : i < shape.size) : i < 2 ^ depth := lt_of_lt_of_le hi hsize
  exact read_sum_cancel (fun p i => (shape.getComp p (mem.comp p) i).1)
    (fun p i => (shape.getComp p (mem.comp p) i).2.1)
    (fun p i => (shape.getComp p (mem.comp p) i).2.2)
    (fun i => (shape.getServer mem.server i).1) (fun i => (shape.getServer mem.server i).2)
    (ox.unitShare T prg depth 0) (ox.unitShare T prg depth 1) (ox.unitShare T prg depth 2)
    (fun i hi => (hmem.view hshape hi).1) (fun i hi => (hmem.view hshape hi).2.1)
    (fun i hi => (hmem.view hshape hi).2.2) (fun i hi => hox.unitShare_add 0 (hlt hi))
    (fun i hi => hox.unitShare_add 1 (hlt hi)) (fun i hi => hox.unitShare_add 2 (hlt hi)) rho

/-- A read first leaves explicit-only mode. -/
theorem read_explicitonly (prg : PRG WIDTH) (nthreads : Player → ℕ+) (serverThreads : ℕ+)
    (shape : Shape oramSize) (ox : OblivIndex U WIDTH) (blinds : Player → Nat → T) (rho : T)
    (mem : Duoram T) (explicitmode : Bool) :
    MemRefS.read prg nthreads serverThreads shape ox blinds rho (mem, explicitmode) =
      MemRefS.read prg nthreads serverThreads shape ox blinds rho
        ((shape.explicitonly false blinds (mem, explicitmode)).1, false) := by
  cases explicitmode <;> rfl

end Prac
