import Prac.RdpfLevel

/-!
# Key generation with any number of threads (`rdpf.tcc`)

* `expandLevel_eq`, `finalizeNonleafLayer_eq`, `finalizeLeafLayer_eq` — each threaded routine is one loop
  over the whole level: a thread's partial sums, added to those so far, are what the loop accumulates.
* `keygen_threads` — the three routines give the same results with any number of threads as with one.
-/

namespace Prac

open Loop Xor

variable {WIDTH : Nat}

section Inner

variable {NT : Type} [LevelNode NT]

/-! ## Expansion -/

/-- One iteration of `expand_level_nothreads`. -/
def expandStep (prg : DPFnode → Bool → NT) (curlevel : Nat → DPFnode) (i : Nat)
    (s : (Nat → NT) × NT × NT) : (Nat → NT) × NT × NT :=
  let lchild := prg (curlevel i) false
  let rchild := prg (curlevel i) true
  (Function.update (Function.update s.1 (2 * i) lchild) (2 * i + 1) rchild,
    s.2.1 ^^^ lchild, s.2.2 ^^^ rchild)

/-- The sums of a thread start from 0; XORed into the sums so far they continue the loop. -/
theorem expandLevelNothreads_accum (prg : DPFnode → Bool → NT) (curlevel : Nat → DPFnode) {a b : Nat}
    (hab : a ≤ b) (next : Nat → NT) (L R : NT) :
    ((expandLevelNothreads prg a b curlevel next).1,
      L ^^^ (expandLevelNothreads prg a b curlevel next).2.1,
      R ^^^ (expandLevelNothreads prg a b curlevel next).2.2) =
        forRange a b (expandStep prg curlevel) (next, L, R) := by
  refine forRange_rel (s := (next, 0, 0)) (t := (next, L, R))
    (fun _ (t u : (Nat → NT) × NT × NT) => (t.1, L ^^^ t.2.1, R ^^^ t.2.2) = u) hab ?_ ?_
  · rw [xor_zero, xor_zero]
  · rintro i ⟨next, tL, tR⟩ u - - rfl
    simp only [expandStep, xor_assoc]

/-- `expand_level` is one loop, whatever the number of threads. -/
theorem expandLevel_eq (prg : DPFnode → Bool → NT) (maxNthreads : ℕ+) (level : Nat)
    (curlevel : Nat → DPFnode) :
    expandLevel prg maxNthreads level curlevel =
      forRange 0 (2 ^ level) (expandStep prg curlevel) (0, 0, 0) := by
  unfold expandLevel
  split
  · have h := expandLevelNothreads_accum prg curlevel (Nat.zero_le (2 ^ level)) 0 0 0
    rwa [zero_xor, zero_xor] at h
  · rename_i hthreads
    refine forChunks_eq_forRange (levelThreads_pos _ (by omega)) ?_ _
    rintro a b ⟨next, L, R⟩ hab
    exact expandLevelNothreads_accum prg curlevel hab next L R

/-! ## Correction of an inner level -/

/-- `finalize_nonleaf_layer` is one loop, whatever the number of threads. -/
theorem finalizeNonleafLayer_eq (maxNthreads : ℕ+) (level : Nat) (curlevel : Nat → DPFnode)
    (CWL CWR : NT) (nextlevel : Nat → NT) :
    finalizeNonleafLayer maxNthreads level curlevel CWL CWR nextlevel =
      finalizeNonleafLayerNothreads 0 (2 ^ level) curlevel CWL CWR nextlevel := by
  unfold finalizeNonleafLayer
  split
  · rfl
  · rename_i hthreads
    exact forChunks_eq_forRange (levelThreads_pos _ (by omega)) (fun _ _ _ _ => rfl) nextlevel

end Inner

/-! ## Correction of a leaf level -/

/-- One iteration of `finalize_leaf_layer_nothreads`. -/
def finalizeLeafStep (curlevel : Nat → DPFnode) (saveExpansion : Bool) (CWL CWR : LeafNode WIDTH)
    (i : Nat) (s : LeafLayer WIDTH) : LeafLayer WIDTH :=
  let flag := getLsb (curlevel i)
  let leftchild := (s.nextlevel (2 * i)).xorIf CWL flag
  let rightchild := (s.nextlevel (2 * i + 1)).xorIf CWR flag
  { nextlevel :=
      if saveExpansion then
        Function.update (Function.update s.nextlevel (2 * i) leftchild) (2 * i + 1) rightchild
      else s.nextlevel
    lowSum := s.lowSum + (lowWord (leftchild 0) + lowWord (rightchild 0))
    highSum := fun j => s.highSum j + (scaledWord leftchild j + scaledWord rightchild j)
    highXor := fun j => s.highXor j ^^^ (scaledWord leftchild j ^^^ scaledWord rightchild j) }

/-- The sums of a leaf layer after those of another. -/
def LeafLayer.accum (s t : LeafLayer WIDTH) : LeafLayer WIDTH where
  nextlevel := t.nextlevel
  lowSum := s.lowSum + t.lowSum
  highSum := fun j => s.highSum j + t.highSum j
  highXor := fun j => s.highXor j ^^^ t.highXor j

theorem LeafLayer.accum_start (s : LeafLayer WIDTH) : s.accum ⟨s.nextlevel, 0, 0, 0⟩ = s := by
  simp only [accum, Pi.zero_apply, add_zero, xor_zero]

theorem LeafLayer.start_accum (next : Nat → LeafNode WIDTH) (t : LeafLayer WIDTH) :
    accum ⟨next, 0, 0, 0⟩ t = t := by
  simp only [accum, Pi.zero_apply, zero_add, zero_xor]

theorem finalizeLeafStep_accum (curlevel : Nat → DPFnode) (saveExpansion : Bool)
    (CWL CWR : LeafNode WIDTH) (i : Nat) (s t : LeafLayer WIDTH) :
    s.accum (finalizeLeafStep curlevel saveExpansion CWL CWR i t) =
      finalizeLeafStep curlevel saveExpansion CWL CWR i (s.accum t) := by
  simp only [finalizeLeafStep, LeafLayer.accum, add_assoc, xor_assoc]

/-- The sums of a thread start from 0; added to the sums so far they continue the loop. -/
theorem finalizeLeafLayerNothreads_accum (curlevel : Nat → DPFnode) (saveExpansion : Bool)
    (CWL CWR : LeafNode WIDTH) {a b : Nat} (hab : a ≤ b) (s : LeafLayer WIDTH) :
    s.accum (finalizeLeafLayerNothreads a b curlevel saveExpansion CWL CWR s.nextlevel) =
      forRange a b (finalizeLeafStep curlevel saveExpansion CWL CWR) s := by
  refine forRange_rel (s := ⟨s.nextlevel, 0, 0, 0⟩) (t := s)
    (fun _ (t u : LeafLayer WIDTH) => s.accum t = u) hab s.accum_start ?_
  rintro i t u - - rfl
  exact finalizeLeafStep_accum curlevel saveExpansion CWL CWR i s t

/-- `finalize_leaf_layer` is one loop, whatever the number of threads. -/
theorem finalizeLeafLayer_eq (maxNthreads : ℕ+) (level : Nat) (curlevel : Nat → DPFnode)
    (saveExpansion : Bool) (CWL CWR : LeafNode WIDTH) (nextlevel : Nat → LeafNode WIDTH) :
    finalizeLeafLayer maxNthreads level curlevel saveExpansion CWL CWR nextlevel =
      forRange 0 (2 ^ level) (finalizeLeafStep curlevel saveExpansion CWL CWR)
        ⟨nextlevel, 0, 0, 0⟩ := by
  unfold finalizeLeafLayer
  split
  · have h := finalizeLeafLayerNothreads_accum curlevel saveExpansion CWL CWR
      (Nat.zero_le (2 ^ level)) ⟨nextlevel, 0, 0, 0⟩
    rwa [LeafLayer.start_accum] at h
  · rename_i hthreads
    refine forChunks_eq_forRange (levelThreads_pos _ (by omega)) ?_ _
    intro a b s hab
    exact finalizeLeafLayerNothreads_accum curlevel saveExpansion CWL CWR hab s

/-! ## All three -/

/-- **Threads do not matter**: for every level, contents and correction words, the three routines leave
the same next level and the same sums with any number of threads as with one. -/
theorem keygen_threads {NT : Type} [LevelNode NT] (nthreads : ℕ+) (level : Nat)
    (curlevel : Nat → DPFnode) :
    (∀ prg : DPFnode → Bool → NT,
      expandLevel prg nthreads level curlevel = expandLevel prg 1 level curlevel) ∧
    (∀ (CWL CWR : NT) (nextlevel : Nat → NT),
      finalizeNonleafLayer nthreads level curlevel CWL CWR nextlevel =
        finalizeNonleafLayer 1 level curlevel CWL CWR nextlevel) ∧
    (∀ (saveExpansion : Bool) (CWL CWR : LeafNode WIDTH) (nextlevel : Nat → LeafNode WIDTH),
      finalizeLeafLayer nthreads level curlevel saveExpansion CWL CWR nextlevel =
        finalizeLeafLayer 1 level curlevel saveExpansion CWL CWR nextlevel) := by
  refine ⟨fun prg => ?_, fun CWL CWR nextlevel => ?_, fun saveExpansion CWL CWR nextlevel => ?_⟩
  · rw [expandLevel_eq, expandLevel_eq]
  · rw [finalizeNonleafLayer_eq, finalizeNonleafLayer_eq]
  · rw [finalizeLeafLayer_eq, finalizeLeafLayer_eq]

end Prac
