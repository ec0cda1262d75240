import Prac.StreamEval
import Mathlib.Algebra.BigOperators.Group.Finset.Basic

/-!
# The stream and the parallel loop against point evaluation (`rdpf.tcc`)

* `StreamEval.after` — the iterator after some calls of `next()`; `after_inv` is its invariant.
* `StreamEval.next_eq_leaf` — the leaf of the `n`-th call is `leaf` at the index `start + n`, wrapped to the
  depth, XORed with the offset.
* `ParallelEval.reduce_eq_sum` — `reduce` calls the function once at each index, with the leaf that one
  stream yields there, and adds up the results, with any number of threads.
-/

namespace Prac

open Loop

variable {WIDTH n : Nat}

/-- The saved expansion of the current leaf level. -/
def RDPF.expansion (dpf : RDPF WIDTH) : List (LeafNode WIDTH) :=
  (dpf.li.getD (dpf.maxdepth - dpf.curdepth) default).expansion

/-- A saved expansion holds the leaves, as the constructor and `expand` make it. -/
def RDPF.ExpansionOk (prg : PRG WIDTH) (dpf : RDPF WIDTH) : Prop :=
  dpf.expansion ≠ [] →
    dpf.expansion = (List.range (2 ^ dpf.curdepth)).map (dpf.leafAt prg dpf.curdepth)

namespace StreamEval

variable [NeZero n] {prg : PRG WIDTH} {rdpf : RDPFTuple n WIDTH}

/-- The iterator after `k` calls of `next()`. -/
def after (prg : PRG WIDTH) (k : Nat) (s : StreamEval n WIDTH) : StreamEval n WIDTH :=
  forRange 0 k (fun _ s => (s.next prg).2) s

theorem after_inv (hpos : 0 < rdpf.depth) (hle : rdpf.depth ≤ addressMaxBits)
    (start xorOffset : Nat) (useExpansion : Bool) (k : Nat) :
    Inv prg rdpf (xorOffset % 2 ^ rdpf.depth) useExpansion ((start + k) % 2 ^ rdpf.depth)
      ((create prg rdpf start xorOffset useExpansion).after prg k) := by
  refine forRange_inv (fun k s =>
    Inv prg rdpf (xorOffset % 2 ^ rdpf.depth) useExpansion ((start + k) % 2 ^ rdpf.depth) s)
    (Nat.zero_le k) (create_inv prg hpos hle start xorOffset useExpansion) ?_
  intro k s _ _ hs
  have hnext := (hs.next_step hpos hle (Nat.mod_lt _ (Nat.two_pow_pos _))).2
  rwa [Nat.mod_add_mod, Nat.add_assoc] at hnext

/-- The `k`-th call yields the `k`-th leaf. -/
theorem next_after (prg : PRG WIDTH) (rdpf : RDPFTuple n WIDTH) (hpos : 0 < rdpf.depth)
    (hle : rdpf.depth ≤ addressMaxBits) (start xorOffset : Nat) (useExpansion : Bool) (k : Nat) :
    (((create prg rdpf start xorOffset useExpansion).after prg k).next prg).1 =
      rdpf.streamLeaf prg useExpansion
        (((start + k) % 2 ^ rdpf.depth) ^^^ (xorOffset % 2 ^ rdpf.depth)) :=
  ((after_inv hpos hle start xorOffset useExpansion k).next_step hpos hle
    (Nat.mod_lt _ (Nat.two_pow_pos _))).1

end StreamEval

/-! ## Point evaluation -/

namespace RDPF

/-- The parent of an index in its layer, and its side there. -/
theorem mod_two_pow_succ (i level : Nat) :
    i % 2 ^ (level + 1) / 2 = i / 2 % 2 ^ level ∧ i % 2 ^ (level + 1) % 2 = i % 2 := by
  constructor
  · rw [Nat.pow_succ', Nat.mod_mul_right_div_self]
  · exact Nat.mod_mod_of_dvd i (Dvd.intro_left (2 ^ level) rfl)

/-- The node at an index depends only on as many low bits as there are levels above it. -/
theorem nodeAt_mod (prg : DPFnode → Bool → DPFnode) (dpf : DPF) (level i : Nat) :
    dpf.nodeAt prg level (i % 2 ^ level) = dpf.nodeAt prg level i := by
  induction level generalizing i with
  | zero => rfl
  | succ level ih =>
      obtain ⟨hdiv, hmod⟩ := mod_two_pow_succ i level
      rw [DPF.nodeAt, DPF.nodeAt, hdiv, hmod, ih]

theorem leafAt_mod (prg : PRG WIDTH) (dpf : RDPF WIDTH) {level : Nat} (hlevel : 1 ≤ level) (i : Nat) :
    dpf.leafAt prg level (i % 2 ^ level) = dpf.leafAt prg level i := by
  obtain ⟨level, rfl⟩ : ∃ l, level = l + 1 := ⟨level - 1, by omega⟩
  obtain ⟨hdiv, hmod⟩ := mod_two_pow_succ i level
  rw [leafAt, leafAt, Nat.add_sub_cancel, hdiv, hmod, nodeAt_mod]

/-- The stream over a single RDPF reads what `leaf` reads. -/
theorem streamLeaf_eq_leaf {prg : PRG WIDTH} {dpf : RDPF WIDTH} (hdepth : 1 ≤ dpf.curdepth)
    {useExpansion : Bool} (hexp : useExpansion = false → dpf.ExpansionOk prg) {i : Nat}
    (hi : i < 2 ^ dpf.curdepth) :
    RDPFTuple.streamLeaf prg (fun _ : Fin 1 => dpf) useExpansion i 0 = dpf.leaf prg i := by
  by_cases hnone : dpf.expansion = []
  · have hhas : RDPFTuple.hasExpansion (fun _ : Fin 1 => dpf) = false := by
      show decide (dpf.expansion.length > 0) = false
      rw [hnone]
      rfl
    rw [RDPFTuple.streamLeaf, hhas, Bool.and_false, leaf_eq_leafAt hdepth hnone]
    rfl
  have hhas : RDPFTuple.hasExpansion (fun _ : Fin 1 => dpf) = true :=
    decide_eq_true (List.length_pos_iff.mpr hnone)
  cases useExpansion with
  | false =>
      rw [leaf_eq_of_expansion (hexp rfl hnone) hi]
      rfl
  | true =>
      have hlen : dpf.expansion.length ≠ 0 := fun h => hnone (List.length_eq_zero_iff.mp h)
      rw [RDPFTuple.streamLeaf, hhas]
      exact (if_pos hlen).symm

end RDPF

/-- **The stream agrees with point evaluation.**  The offset is taken modulo the number of leaves, which
changes nothing where `leaf` walks down the tree. -/
theorem StreamEval.next_eq_leaf (prg : PRG WIDTH) (dpf : RDPF WIDTH) (hpos : 1 ≤ dpf.curdepth)
    (hle : dpf.curdepth ≤ addressMaxBits) (useExpansion : Bool)
    (hexp : useExpansion = false → dpf.ExpansionOk prg) (start xorOffset k : Nat) :
    let leaf := (((create prg (fun _ : Fin 1 => dpf) start xorOffset useExpansion).after prg k).next
      prg).1 0
    leaf = dpf.leaf prg (((start + k) % 2 ^ dpf.curdepth) ^^^ (xorOffset % 2 ^ dpf.curdepth)) ∧
      (dpf.expansion = [] →
        leaf = dpf.leaf prg (((start + k) % 2 ^ dpf.curdepth) ^^^ xorOffset)) := by
  intro leaf
  have hpow := Nat.two_pow_pos dpf.curdepth
  have hindex : ((start + k) % 2 ^ dpf.curdepth) ^^^ (xorOffset % 2 ^ dpf.curdepth) <
      2 ^ dpf.curdepth := Nat.xor_lt_two_pow (Nat.mod_lt _ hpow) (Nat.mod_lt _ hpow)
  have hleaf : leaf = dpf.leaf prg
      (((start + k) % 2 ^ dpf.curdepth) ^^^ (xorOffset % 2 ^ dpf.curdepth)) := by
    have hstream := next_after prg (fun _ : Fin 1 => dpf) hpos hle start xorOffset useExpansion k
    exact (congrFun hstream 0).trans (RDPF.streamLeaf_eq_leaf hpos hexp hindex)
  refine ⟨hleaf, fun hnone => ?_⟩
  rw [hleaf, RDPF.leaf_eq_leafAt hpos hnone, RDPF.leaf_eq_leafAt hpos hnone,
    ← RDPF.leafAt_mod prg dpf hpos (_ ^^^ xorOffset), Nat.xor_mod_two_pow, Nat.mod_mod]

/-- A PRG whose leaves are all ones. -/
def onesPrg : PRG 1 := ⟨fun _ _ => 0, fun _ _ _ => 1⟩

/-- Half of an RDPF of depth 1 with a saved expansion. -/
def savedRdpf : RDPF 1 where
  seed := 0
  whichhalf := false
  cw := []
  cfbits := 0
  maxdepth := 1
  curdepth := 1
  li := [⟨0, 1, 0, 0, [fun _ => 1, fun _ => 1]⟩]
  leafCfbits := 0

theorem savedRdpf_ok : savedRdpf.ExpansionOk onesPrg := fun _ => rfl

/-- The stream at offset 3 with the expansion not used: its second leaf is leaf 0. -/
theorem StreamEval.next_eq_leaf_saved :
    (((create onesPrg (fun _ : Fin 1 => savedRdpf) 0 3 false).after onesPrg 1).next onesPrg).1 0 =
      savedRdpf.leaf onesPrg (((0 + 1) % 2 ^ 1) ^^^ (3 % 2 ^ 1)) :=
  (next_eq_leaf onesPrg savedRdpf (by decide) (by decide) false (fun _ => savedRdpf_ok) 0 3 1).1

/-- At an offset from outside the tree the stream wraps around; `leaf` at the XORed index reads behind the
saved expansion. -/
theorem StreamEval.next_ne_leaf_saved :
    savedRdpf.ExpansionOk onesPrg ∧ savedRdpf.expansion.length ≤ ((0 + 0) % 2 ^ 1) ^^^ 2 ∧
      (((create onesPrg (fun _ : Fin 1 => savedRdpf) 0 2 true).after onesPrg 0).next onesPrg).1 0 ≠
        savedRdpf.leaf onesPrg (((0 + 0) % 2 ^ 1) ^^^ 2) := by
  refine ⟨fun _ => rfl, by decide, fun h => ?_⟩
  have hfirst := congrFun h 0
  exact absurd hfirst (by decide)

/-! ## The parallel loop -/

/-- **The parallel loop is the sequential fold.**  The calls of `f` are recorded in the state of the
loop. -/
theorem ParallelEval.reduce_eq_sum [NeZero n] {V : Type} [AddCommMonoid V] (prg : PRG WIDTH)
    (rdpf : RDPFTuple n WIDTH) (hpos : 1 ≤ rdpf.depth) (hle : rdpf.depth ≤ addressMaxBits)
    (start xorOffset : Nat) {numEvals : Nat} (hn : numEvals ≤ 2 ^ rdpf.depth) (numThreads : ℕ+)
    (f : Nat → LeafTuple n WIDTH → V) :
    let leaf i := (((StreamEval.create prg rdpf start xorOffset true).after prg i).next prg).1
    let out := reduce prg rdpf start xorOffset numEvals numThreads 0
      (fun i leaf calls => (f i leaf, calls ++ [(i, leaf)])) []
    out.1 = ∑ i ∈ Finset.range numEvals, f i (leaf i) ∧
      out.2 = (List.range numEvals).map fun i => (i, leaf i) := by
  intro leaf out
  have hleaf i : leaf i = streamedLeaf prg rdpf start xorOffset i :=
    StreamEval.next_after prg rdpf hpos hle start xorOffset true i
  refine reduce_streamed hpos hle hn numThreads (fun m total calls =>
    total = ∑ i ∈ Finset.range m, f i (leaf i) ∧ calls = (List.range m).map fun i => (i, leaf i))
    ⟨rfl, rfl⟩ ?_
  rintro i - v calls ⟨rfl, rfl⟩
  rw [Finset.sum_range_succ, List.range_succ, List.map_append, ← hleaf i]
  exact ⟨rfl, rfl⟩

/-- Two evaluations dealt to three threads. -/
theorem ParallelEval.reduce_two :
    (reduce onesPrg (fun _ : Fin 1 => savedRdpf) 0 0 2 ⟨3, Nat.succ_pos 2⟩ 0
      (fun i leaf calls => (i + (leaf 0 0).toNat, calls ++ [(i, leaf)])) []).1 = 3 :=
  (reduce_eq_sum onesPrg (fun _ : Fin 1 => savedRdpf) (by decide) (by decide) 0 0
    (show 2 ≤ 2 ^ 1 by decide) ⟨3, Nat.succ_pos 2⟩ fun i leaf => i + (leaf 0 0).toNat).1.trans
    (by decide)

end Prac
