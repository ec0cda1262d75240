import Prac.DuoramKeys
import Prac.Heap
import Prac.StreamLeaf
import Prac.MpcShares

/-!
# The unit vector of a searched index (`OblivIndex::unit_vector`)

* `OblivIndex.UnitValid` — the players' triples are valid: they can be evaluated, with the saved expansions
  if there are any, and every pair is a unit vector of the shared target.
* `KeysOk.unitValid` — key generation makes such triples.
* `OblivIndex.unitVector` — the offset to the index is opened, and the stream over the second RDPF is read
  from there on (`unitVector_getElem`).
* `OblivIndex.unitVector_correct` — the two vectors are shares of the unit vector.
-/

namespace Prac

open Loop

variable {U : Type} [SharedIndex U] {WIDTH : Nat}

/-- The computational players' halves of an index of `depth` bits.  The depth of the index is that of its
RDPFs, which have one level at least. -/
structure OblivIndex.UnitValid (prg : PRG WIDTH) (depth : Nat) (ox : OblivIndex U WIDTH) : Prop where
  pos : 1 ≤ depth
  le : depth ≤ addressMaxBits
  depth_eq : ∀ p k, ((ox.dt p).dpf k).curdepth = depth
  expansion : ∀ p k, ((ox.dt p).dpf k).ExpansionOk prg
  unit : ∀ k, ∀ x < 2 ^ depth,
    ((RDPF.unitBs (((ox.dt .p0).dpf k).leafAt prg depth x)).bshare ^^
      (RDPF.unitBs (((ox.dt .p1).dpf k).leafAt prg depth x)).bshare) = decide (x = ox.target depth)

/-- The keys that the three parties make are valid. -/
theorem KeysOk.unitValid {prg : PRG WIDTH} {save : Bool} {depth level t : Nat}
    {dpfs : Fin 3 → Player → RDPF WIDTH} {ox : OblivIndex U WIDTH}
    (h : KeysOk prg save depth level t dpfs) (hd : Distributed level dpfs ox)
    (htarget : ox.target level = t) : ox.UnitValid prg level where
  pos := h.pos
  le := h.le.trans h.addr
  depth_eq p k := by rw [hd.triple, h.curdepth]
  expansion p k := by
    intro hne
    have hexp : ((ox.dt p).dpf k).expansion =
        if save then (List.range (2 ^ level)).map ((dpfs k p).leafAt prg level) else [] := by
      rw [RDPF.expansion, hd.triple, h.curdepth]
      exact (h.ok k).expansion p
    have hsave : save = true := by
      cases save
      · exact absurd hexp hne
      · rfl
    rw [hexp, if_pos hsave, hd.triple, h.curdepth]
    rfl
  unit k x hx := by
    rw [hd.triple, hd.triple, htarget]
    exact (h.ok k).unitBs hx

/-- A single RDPF as a tuple. -/
theorem RDPF.ExpansionOk.ready {prg : PRG WIDTH} {dpf : RDPF WIDTH} (h : dpf.ExpansionOk prg)
    (hpos : 1 ≤ dpf.curdepth) (hle : dpf.curdepth ≤ addressMaxBits) :
    RDPFTuple.Ready prg (fun _ : Fin 1 => dpf) where
  pos := hpos
  le := hle
  expansion hhas i hi := by
    have hne : dpf.expansion ≠ [] := List.length_pos_iff.1 (of_decide_eq_true hhas)
    have hexp := h hne
    have hlt : i < 2 ^ dpf.curdepth := hi
    funext k
    show dpf.expansion.getD i 0 = dpf.leafAt prg dpf.curdepth i
    rw [hexp, List.getD_eq_getElem?_getD, List.getElem?_map, List.getElem?_range hlt]
    rfl

namespace OblivIndex

local instance (priority := 2000) neZero_one : NeZero 1 := ⟨one_ne_zero⟩

/-- The loop body of `unit_vector`: one more entry is read off the stream. -/
def nextUnit (prg : PRG WIDTH) (j : Nat) (st : List RegBS × StreamEval 1 WIDTH) :
    List RegBS × StreamEval 1 WIDTH :=
  let (standard_basis, se) := st
  let (leaf, se) := se.next prg
  (standard_basis.set j (RDPF.unitBs (leaf 0)), se)

/-- `OblivIndex::unit_vector`. -/
def unitVector (prg : PRG WIDTH) (ox : OblivIndex RegXS WIDTH) (curdepth nitems : Nat)
    (foundidx : Player → RegXS) (p : Player) : List RegBS :=
  let indoffset q : RegXS := SharedIndex.getTarget (ox.dt q) - foundidx q
  let peerindoffset : RegXS := ⟨received (bitBytes curdepth) (indoffset p.peer).xshare⟩
  let indshift := ((indoffset p).combine peerindoffset curdepth).toNat
  let se := StreamEval.create prg (fun _ : Fin 1 => (ox.dt p).dpf 1) 0 indshift true
  (forRange 0 nitems (nextUnit prg) (List.replicate nitems ⟨false⟩, se)).1

/-- After `n` rounds the first `n` entries are those of the stream. -/
theorem forRange_nextUnit (prg : PRG WIDTH) {n nitems : Nat} (hn : n ≤ nitems) (se : StreamEval 1 WIDTH) :
    forRange 0 n (nextUnit prg) (List.replicate nitems ⟨false⟩, se) =
      ((List.range n).map (fun j => RDPF.unitBs (((se.after prg j).next prg).1 0)) ++
        List.replicate (nitems - n) ⟨false⟩, se.after prg n) := by
  induction n with
  | zero => rfl
  | succ n ih =>
      obtain ⟨rest, hrest⟩ : ∃ rest, nitems - n = rest + 1 := ⟨nitems - n - 1, by omega⟩
      have hrest' : nitems - (n + 1) = rest := by omega
      have hafter : ((se.after prg n).next prg).2 = se.after prg (n + 1) :=
        (forRange_succ (Nat.zero_le n) (fun _ s => (s.next prg).2) se).symm
      have hlen : ((List.range n).map fun j => RDPF.unitBs (((se.after prg j).next prg).1 0)).length = n := by
        rw [List.length_map, List.length_range]
      rw [forRange_succ (Nat.zero_le n), ih (Nat.le_of_succ_le hn), hrest', hrest, List.range_succ,
        List.map_append, List.append_assoc, ← hafter]
      simp only [nextUnit]
      rw [List.set_append_right _ _ hlen.le, hlen, Nat.sub_self]
      rfl

/-- The opened offset from the index that is searched to the target. -/
def unitOffset (ox : OblivIndex RegXS WIDTH) (curdepth : Nat) (foundidx : Player → RegXS) : Nat :=
  ((SharedIndex.getTarget (ox.dt .p0) - foundidx .p0 : RegXS).combine
    (SharedIndex.getTarget (ox.dt .p1) - foundidx .p1) curdepth).toNat

/-- Both players combine the same offset, though the peer's is received in whole bytes. -/
theorem unitVector_eq (prg : PRG WIDTH) (ox : OblivIndex RegXS WIDTH) (curdepth nitems : Nat)
    (foundidx : Player → RegXS) (p : Player) :
    ox.unitVector prg curdepth nitems foundidx p = (List.range nitems).map fun j => RDPF.unitBs
      ((((StreamEval.create prg (fun _ : Fin 1 => (ox.dt p).dpf 1) 0 (ox.unitOffset curdepth foundidx)
        true).after prg j).next prg).1 0) := by
  have hreceived (a b : RegXS) : a.combine ⟨received (bitBytes curdepth) b.xshare⟩ curdepth =
      a.combine b curdepth := by
    rw [RegXS.combine, RegXS.combine, xor_and_maskBits, xor_and_maskBits, received,
      receivedInto_and_maskBits]
  have hshift : (((SharedIndex.getTarget (ox.dt p) : RegXS) - foundidx p).combine
      ⟨received (bitBytes curdepth) ((SharedIndex.getTarget (ox.dt p.peer) : RegXS) -
        foundidx p.peer).xshare⟩ curdepth).toNat = ox.unitOffset curdepth foundidx := by
    rw [hreceived]
    cases p
    · rfl
    · exact congrArg BitVec.toNat (SharedIndex.combine_comm (U := RegXS) _ _ _)
  unfold unitVector
  dsimp only
  rw [hshift, forRange_nextUnit prg le_rfl, Nat.sub_self, List.replicate_zero, List.append_nil]

/-- The entries of a player's vector are read off the leaves at their places, shifted by the offset. -/
theorem UnitValid.unitVector_eq_leafAt {prg : PRG WIDTH} {depth : Nat} {ox : OblivIndex RegXS WIDTH}
    (h : ox.UnitValid prg depth) {nitems : Nat} (hitems : nitems ≤ 2 ^ depth)
    (foundidx : Player → RegXS) (p : Player) :
    ox.unitVector prg depth nitems foundidx p = (List.range nitems).map fun j =>
      RDPF.unitBs (((ox.dt p).dpf 1).leafAt prg depth (j ^^^ (ox.unitOffset depth foundidx % 2 ^ depth))) := by
  have hdepth := h.depth_eq p 1
  have hready := (h.expansion p 1).ready (hdepth ▸ h.pos) (hdepth ▸ h.le)
  have htuple : (RDPFTuple.depth fun _ : Fin 1 => (ox.dt p).dpf 1) = depth := hdepth
  rw [unitVector_eq]
  refine List.map_congr_left fun j hj => ?_
  have hlt : j < 2 ^ depth := (List.mem_range.1 hj).trans_le hitems
  have hnext := StreamEval.next_after prg (fun _ : Fin 1 => (ox.dt p).dpf 1) hready.pos hready.le 0
    (ox.unitOffset depth foundidx) true j
  rw [hnext, htuple, Nat.zero_add, Nat.mod_eq_of_lt hlt, hready.streamLeaf, RDPFTuple.leafAt, htuple]
  rw [htuple]
  exact Nat.xor_lt_two_pow hlt (Nat.mod_lt _ (Nat.two_pow_pos depth))

/-- The leaf that entry `j` is read off is the target's if `j` is the index that is searched. -/
theorem xor_unitOffset_eq_target_iff (ox : OblivIndex RegXS WIDTH) {depth j : Nat} (hle : depth ≤ 64)
    (hj : j < 2 ^ depth) (foundidx : Player → RegXS) :
    j ^^^ (ox.unitOffset depth foundidx % 2 ^ depth) = ox.target depth ↔
      j = ((foundidx .p0).xshare ^^^ (foundidx .p1).xshare).toNat % 2 ^ depth := by
  have hhit := SharedIndex.hit (fun p => (SharedIndex.getTarget (ox.dt p) : RegXS)) foundidx depth j hle hj
  have hvalue : (SharedIndex.combine (foundidx .p0) (foundidx .p1) depth).toNat =
      ((foundidx .p0).xshare ^^^ (foundidx .p1).xshare).toNat % 2 ^ depth := by
    show (((foundidx .p0).xshare ^^^ (foundidx .p1).xshare) &&& maskBits depth).toNat = _
    rw [toNat_and_maskBits hle, BitVec.toNat_setWidth]
  have hstart : (SharedIndex.ifRegAS RegXS (SharedIndex.combine (SharedIndex.getTarget (ox.dt .p0) -
      foundidx .p0) (SharedIndex.getTarget (ox.dt .p1) - foundidx .p1) depth).toNat + j) % 2 ^ depth = j := by
    show (0 + j) % 2 ^ depth = j
    rw [Nat.zero_add, Nat.mod_eq_of_lt hj]
  rw [hvalue, hstart] at hhit
  exact hhit

/-- The vectors of the two players are shares of the vector that the heap's insertion works with. -/
theorem UnitValid.unitVector_xor {prg : PRG WIDTH} {depth : Nat} {ox : OblivIndex RegXS WIDTH}
    (h : ox.UnitValid prg depth) {nitems : Nat} (hitems : nitems ≤ 2 ^ depth)
    (foundidx : Player → RegXS) :
    List.zipWith (fun a b => a.bshare ^^ b.bshare) (ox.unitVector prg depth nitems foundidx .p0)
        (ox.unitVector prg depth nitems foundidx .p1) =
      (List.range nitems).map
        (MinHeap.unitVector ((foundidx .p0).xshare ^^^ (foundidx .p1).xshare) depth) := by
  rw [h.unitVector_eq_leafAt hitems, h.unitVector_eq_leafAt hitems, List.zipWith_map, List.zipWith_self]
  refine List.map_congr_left fun j hj => ?_
  have hlt : j < 2 ^ depth := (List.mem_range.1 hj).trans_le hitems
  have hleaf := h.unit 1 _ (Nat.xor_lt_two_pow hlt
    (Nat.mod_lt (ox.unitOffset depth foundidx) (Nat.two_pow_pos depth)))
  rw [hleaf]
  exact decide_eq_decide.2 (ox.xor_unitOffset_eq_target_iff (h.le.trans (by decide)) hlt foundidx)

/-- **The two vectors are shares of the unit vector** of the index that is searched. -/
theorem unitVector_correct (prg : PRG WIDTH) {depth : Nat} {ox : OblivIndex RegXS WIDTH}
    (h : ox.UnitValid prg depth) (foundidx : Player → RegXS)
    (hidx : ((foundidx .p0).xshare ^^^ (foundidx .p1).xshare).toNat < 2 ^ depth) {nitems : Nat}
    (hitems : nitems ≤ 2 ^ depth) :
    List.zipWith (fun a b => a.bshare ^^ b.bshare) (ox.unitVector prg depth nitems foundidx .p0)
        (ox.unitVector prg depth nitems foundidx .p1) =
      (List.range nitems).map fun j =>
        decide (j = ((foundidx .p0).xshare ^^^ (foundidx .p1).xshare).toNat) := by
  rw [h.unitVector_xor hitems]
  refine List.map_congr_left fun j _ => ?_
  unfold MinHeap.unitVector Index.pos
  rw [Nat.mod_eq_of_lt hidx]

/-- Six entries of the unit vector of index 3, of a DPF of eight leaves. -/
theorem unitVector_correct_six : ∃ ox : OblivIndex RegXS 1,
    let foundidx (p : Player) : RegXS := if p.bit then ⟨0x1f⟩ else ⟨0x1c⟩
    List.zipWith (fun a b => a.bshare ^^ b.bshare)
        (ox.unitVector ⟨fun _ _ => 0, fun _ _ => 0⟩ 3 6 foundidx .p0)
        (ox.unitVector ⟨fun _ _ => 0, fun _ _ => 0⟩ 3 6 foundidx .p1) =
      [false, false, false, true, false, false] := by
  let target (p : Player) : RegXS := if p.bit then ⟨5⟩ else 0
  obtain ⟨dpfs, -, hkeys⟩ := exists_keysOk (⟨fun _ _ => 0, fun _ _ => 0⟩ : PRG 1) target false true
    (show 1 ≤ 3 by decide) le_rfl (by decide) (Or.inr rfl) (fun _ => 1) (fun _ _ => 0) default
  have hdist := OblivIndex.ofKeys_distributed 3 target 0 dpfs 0 (0 : Player → RegXS)
  have hvalid := hkeys.unitValid hdist (hkeys.target_xs hdist fun _ => rfl)
  refine ⟨ofKeys 3 target 0 dpfs 0 0, ?_⟩
  exact (unitVector_correct _ hvalid (fun p => if p.bit then ⟨0x1f⟩ else ⟨0x1c⟩) (by decide)
    (show 6 ≤ 2 ^ 3 by decide)).trans (by decide)

end OblivIndex

end Prac
