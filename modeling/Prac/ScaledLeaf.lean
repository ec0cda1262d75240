import Prac.Expand

/-!
# The scaled entries of a leaf at every width (`rdpf.hpp`, `rdpf.tcc`)

* `RDPF.unpackWords` — the loop that `scaled_xs` and `scaled_as` share, with its end as a parameter.
  `unpackWords_spec`: up to `LWIDTH` it stays inside the leaf and the result; `unpackWords_none`: from
  width 3 on a loop up to `WIDTH` does not.
* `RDPF.sumWords_spec` — the loop of `finalize_leaf_layer` over the words of two leaves uses the same layout;
  `RDPF.finalizeLeafLayerLoop_eq` — with it, the pass over a leaf layer is `finalizeLeafLayerNothreads`.
* `scaled_iff` — the halves of an RDPF have scaled entries inside the bounds, which add up to the scaled
  sums and vanish off the target, if and only if the width is at most 2; those of `scaled_xs` alone up to
  width 5, where the leaf PRG still writes whole leaves.
-/

namespace Prac

open Loop

variable {WIDTH : Nat}

namespace RDPF

/-! ## Unpacking a leaf -/

/-- The loop of `scaled_xs` and `scaled_as`: `i` runs over the entries of the leaf up to `stop`, `j` over
those of the result. -/
def unpackWords {T : Type} [Zero T] (stop : Nat) (f : Value → T) (leaf : LeafNode WIDTH) :
    Option (Fin WIDTH → T) := do
  let a ← setEntry 0 0 (f (highWord (leaf 0)))
  let (a, _) ← forRangeOpt 1 stop (fun i (a, j) =>
    if h : i < LWIDTH WIDTH then do
      let a ← setEntry a j (f (lowWord (leaf ⟨i, h⟩)))
      if j + 1 < WIDTH then do
        let a ← setEntry a (j + 1) (f (highWord (leaf ⟨i, h⟩)))
        some (a, j + 2)
      else some (a, j + 1)
    else none) (a, 1)
  some a

/-- `RDPF::scaled_xs`, entry by entry. -/
def scaledXsLoop (leaf : LeafNode WIDTH) : Option (Fin WIDTH → RegXS) :=
  unpackWords (LWIDTH WIDTH) (fun word => ⟨word⟩) leaf

theorem scaledAs_eq_unpackWords (dpf : RDPF WIDTH) (leaf : LeafNode WIDTH) :
    dpf.scaledAs leaf =
      unpackWords WIDTH (fun word => ⟨if dpf.whichhalf then -word else word⟩) leaf := rfl

theorem scaledWord_low (leaf : LeafNode WIDTH) {i j : Nat} (hi : i < LWIDTH WIDTH) (hj : j < WIDTH)
    (hij : j + 1 = 2 * i) : scaledWord leaf ⟨j, hj⟩ = lowWord (leaf ⟨i, hi⟩) := by
  have hodd : j % 2 ≠ 0 := by omega
  have hnode : (j + 1) / 2 = i := by omega
  simp only [scaledWord, hnode, if_neg hodd]

theorem scaledWord_high (leaf : LeafNode WIDTH) {i j : Nat} (hi : i < LWIDTH WIDTH) (hj : j < WIDTH)
    (hij : j = 2 * i) : scaledWord leaf ⟨j, hj⟩ = highWord (leaf ⟨i, hi⟩) := by
  have heven : j % 2 = 0 := by omega
  have hnode : (j + 1) / 2 = i := by omega
  simp only [scaledWord, hnode, if_pos heven]

theorem setEntry_lt {T : Type} (a : Fin WIDTH → T) {j : Nat} (hj : j < WIDTH) (v : T) :
    setEntry a j v = some (Function.update a ⟨j, hj⟩ v) := dif_pos hj

/-- One more entry of the result. -/
theorem filled_update {T : Type} {f : Fin WIDTH → T} {a : Fin WIDTH → T} {j : Nat}
    (h : ∀ k : Fin WIDTH, k.val < j → a k = f k) (hj : j < WIDTH) {v : T} (hv : v = f ⟨j, hj⟩) :
    ∀ k : Fin WIDTH, k.val < j + 1 → Function.update a ⟨j, hj⟩ v k = f k := by
  intro k hk
  by_cases hkj : k = ⟨j, hj⟩
  · rw [hkj, Function.update_self, hv]
  · rw [Function.update_of_ne hkj]
    refine h k (lt_of_le_of_ne (Nat.lt_succ_iff.mp hk) fun heq => hkj (Fin.ext heq))

/-- One iteration of the loop, inside the leaf. -/
theorem unpackStep_spec {T : Type} (f : Value → T) (leaf : LeafNode WIDTH) {i : Nat} (hi1 : 1 ≤ i)
    (hi : i < LWIDTH WIDTH) {a : Fin WIDTH → T}
    (ha : ∀ k : Fin WIDTH, k.val < 2 * i - 1 → a k = f (scaledWord leaf k)) :
    ∃ a', (do
        let a ← setEntry a (2 * i - 1) (f (lowWord (leaf ⟨i, hi⟩)))
        if 2 * i - 1 + 1 < WIDTH then do
          let a ← setEntry a (2 * i - 1 + 1) (f (highWord (leaf ⟨i, hi⟩)))
          some (a, 2 * i - 1 + 2)
        else some (a, 2 * i - 1 + 1)) = some (a', min (2 * (i + 1) - 1) WIDTH) ∧
      ∀ k : Fin WIDTH, k.val < min (2 * (i + 1) - 1) WIDTH → a' k = f (scaledWord leaf k) := by
  have hwidth : LWIDTH WIDTH = WIDTH / 2 + 1 := rfl
  have hlow : 2 * i - 1 < WIDTH := by omega
  have hlow' := filled_update ha hlow (congrArg f (scaledWord_low leaf hi hlow (by omega)).symm)
  rw [setEntry_lt _ hlow, Option.bind_eq_bind, Option.bind_some]
  by_cases hmore : 2 * i - 1 + 1 < WIDTH
  · have hhigh := filled_update hlow' hmore
      (congrArg f (scaledWord_high leaf hi hmore (by omega)).symm)
    rw [if_pos hmore, setEntry_lt _ hmore, Option.bind_some]
    refine ⟨_, congrArg some (Prod.ext rfl ?_), fun k hk => hhigh k (by omega)⟩
    show 2 * i - 1 + 2 = _
    omega
  · rw [if_neg hmore]
    refine ⟨_, congrArg some (Prod.ext rfl ?_), fun k hk => hlow' k (by omega)⟩
    show 2 * i - 1 + 1 = _
    omega

/-- Up to `LWIDTH` the loop stays inside the leaf and the result and unpacks every scaled word. -/
theorem unpackWords_spec {T : Type} [Zero T] (hwidth : 1 ≤ WIDTH) (f : Value → T)
    (leaf : LeafNode WIDTH) :
    unpackWords (LWIDTH WIDTH) f leaf = some fun j => f (scaledWord leaf j) := by
  have hlwidth : LWIDTH WIDTH = WIDTH / 2 + 1 := rfl
  have hfirst : f (highWord (leaf 0)) = f (scaledWord leaf ⟨0, hwidth⟩) :=
    congrArg f (scaledWord_high leaf (Nat.succ_pos _) hwidth rfl).symm
  have hstart := filled_update (f := fun k => f (scaledWord leaf k)) (a := (0 : Fin WIDTH → T))
    (fun k hk => absurd hk (Nat.not_lt_zero _)) hwidth hfirst
  unfold unpackWords
  rw [setEntry_lt _ hwidth, Option.bind_eq_bind, Option.bind_some]
  generalize hloop : forRangeOpt 1 (LWIDTH WIDTH) _ _ = out
  obtain ⟨⟨a, j⟩, hrun, hj, ha⟩ : ∃ s : (Fin WIDTH → T) × Nat, out = some s ∧
      s.2 = min (2 * LWIDTH WIDTH - 1) WIDTH ∧
        ∀ k : Fin WIDTH, k.val < s.2 → s.1 k = f (scaledWord leaf k) := by
    rw [← hloop]
    refine forRangeOpt_inv (fun i (s : (Fin WIDTH → T) × Nat) => s.2 = min (2 * i - 1) WIDTH ∧
      ∀ k : Fin WIDTH, k.val < s.2 → s.1 k = f (scaledWord leaf k)) (by omega)
      ⟨(Nat.min_eq_left hwidth).symm, hstart⟩ ?_
    rintro i ⟨a, j⟩ hi1 hi ⟨hj, ha⟩
    have hjlow : j = 2 * i - 1 := hj.trans (Nat.min_eq_left (by omega))
    subst hjlow
    obtain ⟨a', hstep, ha'⟩ := unpackStep_spec f leaf hi1 hi ha
    exact ⟨_, (dif_pos hi).trans hstep, rfl, ha'⟩
  rw [hrun]
  refine congrArg some (funext fun k => ha k ?_)
  have hk := k.isLt
  show k.val < j
  rw [show j = _ from hj]
  omega

/-- From width 3 on a loop up to `WIDTH` leaves the leaf. -/
theorem unpackWords_none {T : Type} [Zero T] (hwidth : 3 ≤ WIDTH) (f : Value → T)
    (leaf : LeafNode WIDTH) : unpackWords WIDTH f leaf = none := by
  have hlwidth : LWIDTH WIDTH = WIDTH / 2 + 1 := rfl
  unfold unpackWords
  rw [setEntry_lt _ (by omega), Option.bind_eq_bind, Option.bind_some,
    forRangeOpt_none (i := LWIDTH WIDTH) (by omega) (by omega) fun s => dif_neg (lt_irrefl _)]
  rfl

theorem scaledXsLoop_eq (hwidth : 1 ≤ WIDTH) (leaf : LeafNode WIDTH) :
    scaledXsLoop leaf = some (scaledXs leaf) := unpackWords_spec hwidth _ leaf

theorem scaledAs_none (hwidth : 3 ≤ WIDTH) (dpf : RDPF WIDTH) (leaf : LeafNode WIDTH) :
    dpf.scaledAs leaf = none :=
  (dpf.scaledAs_eq_unpackWords leaf).trans (unpackWords_none hwidth _ leaf)

/-! ## Adding up the words of two leaves -/

/-- An update of an array entry, which must exist. -/
def modifyEntry (a : Fin WIDTH → Value) (j : Nat) (g : Value → Value) : Option (Fin WIDTH → Value) :=
  if h : j < WIDTH then some (Function.update a ⟨j, h⟩ (g (a ⟨j, h⟩))) else none

/-- The loop of `finalize_leaf_layer_nothreads` over the scaled words of two children, for `high_sum` (with
`+`) and `high_xor` (with `^`): `w` runs over the entries of the leaves, and `j` is `2 * w - 1`. -/
def sumWords (op : Value → Value → Value) (leftchild rightchild : LeafNode WIDTH)
    (acc : Fin WIDTH → Value) : Option (Fin WIDTH → Value) := do
  let acc ← modifyEntry acc 0 fun sum =>
    op sum (op (highWord (leftchild 0)) (highWord (rightchild 0)))
  forRangeOpt 1 (WIDTH / 2 + 1) (fun w acc =>
    if h : w < LWIDTH WIDTH then do
      let acc ← modifyEntry acc (2 * w - 1) fun sum =>
        op sum (op (lowWord (leftchild ⟨w, h⟩)) (lowWord (rightchild ⟨w, h⟩)))
      if 2 * w - 1 + 1 < WIDTH then
        modifyEntry acc (2 * w - 1 + 1) fun sum =>
          op sum (op (highWord (leftchild ⟨w, h⟩)) (highWord (rightchild ⟨w, h⟩)))
      else some acc
    else none) acc

/-- The sums with the first `m` entries updated. -/
def summed (op : Value → Value → Value) (leftchild rightchild : LeafNode WIDTH)
    (acc : Fin WIDTH → Value) (m : Nat) : Fin WIDTH → Value :=
  fun j => if j.val < m then op (acc j) (op (scaledWord leftchild j) (scaledWord rightchild j)) else acc j

theorem modifyEntry_summed {op : Value → Value → Value} {leftchild rightchild : LeafNode WIDTH}
    (acc : Fin WIDTH → Value) {j : Nat} (hj : j < WIDTH) {l r : Value}
    (hl : l = scaledWord leftchild ⟨j, hj⟩) (hr : r = scaledWord rightchild ⟨j, hj⟩) :
    modifyEntry (summed op leftchild rightchild acc j) j (fun sum => op sum (op l r)) =
      some (summed op leftchild rightchild acc (j + 1)) := by
  refine (dif_pos hj).trans (congrArg some (funext fun k => ?_))
  by_cases hk : k = ⟨j, hj⟩
  · rw [hk, Function.update_self, summed, summed, if_neg (lt_irrefl j), if_pos (Nat.lt_succ_self j),
      hl, hr]
  · have hne : k.val ≠ j := fun heq => hk (Fin.ext heq)
    have hlt : k.val < j + 1 ↔ k.val < j := by omega
    rw [Function.update_of_ne hk, summed, summed]
    simp only [hlt]

/-- The loop updates every sum with the scaled words of the two children, inside the bounds. -/
theorem sumWords_spec (hwidth : 1 ≤ WIDTH) (op : Value → Value → Value)
    (leftchild rightchild : LeafNode WIDTH) (acc : Fin WIDTH → Value) :
    sumWords op leftchild rightchild acc =
      some fun j => op (acc j) (op (scaledWord leftchild j) (scaledWord rightchild j)) := by
  have hlwidth : LWIDTH WIDTH = WIDTH / 2 + 1 := rfl
  have hfirst : modifyEntry acc 0 (fun sum =>
      op sum (op (highWord (leftchild 0)) (highWord (rightchild 0)))) =
        some (summed op leftchild rightchild acc 1) :=
    modifyEntry_summed acc hwidth
      (scaledWord_high leftchild (i := 0) (Nat.succ_pos _) hwidth rfl).symm
      (scaledWord_high rightchild (i := 0) (Nat.succ_pos _) hwidth rfl).symm
  unfold sumWords
  rw [hfirst, Option.bind_eq_bind, Option.bind_some]
  generalize hloop : forRangeOpt 1 (WIDTH / 2 + 1) _ _ = out
  obtain ⟨sums, hrun, hsums⟩ : ∃ sums, out = some sums ∧
      sums = summed op leftchild rightchild acc (min (2 * (WIDTH / 2 + 1) - 1) WIDTH) := by
    rw [← hloop]
    refine forRangeOpt_inv (fun w sums =>
      sums = summed op leftchild rightchild acc (min (2 * w - 1) WIDTH)) (by omega)
      (by rw [Nat.min_eq_left hwidth]) ?_
    rintro w sums hw1 hw rfl
    have hlow : 2 * w - 1 < WIDTH := by omega
    have hw' : w < LWIDTH WIDTH := hw
    refine ⟨_, ?_, rfl⟩
    rw [dif_pos hw', Nat.min_eq_left hlow.le, modifyEntry_summed acc hlow
      (scaledWord_low leftchild hw' hlow (by omega)).symm
      (scaledWord_low rightchild hw' hlow (by omega)).symm, Option.bind_some]
    by_cases hmore : 2 * w - 1 + 1 < WIDTH
    · rw [if_pos hmore, modifyEntry_summed acc hmore
        (scaledWord_high leftchild hw' hmore (by omega)).symm
        (scaledWord_high rightchild hw' hmore (by omega)).symm]
      congr 2
      omega
    · rw [if_neg hmore]
      congr 2
      omega
  rw [hrun, hsums]
  refine congrArg some (funext fun j => if_pos ?_)
  have hj := j.isLt
  omega

/-- `finalize_leaf_layer_nothreads` with its inner loop, which has to stay inside the leaves and the sums. -/
def finalizeLeafLayerLoop (start stop : Nat) (curlevel : Nat → DPFnode) (saveExpansion : Bool)
    (CWL CWR : LeafNode WIDTH) (nextlevel : Nat → LeafNode WIDTH) : Option (LeafLayer WIDTH) :=
  forRangeOpt start stop (fun i s => do
    let flag := getLsb (curlevel i)
    let leftchild := (s.nextlevel (2 * i)).xorIf CWL flag
    let rightchild := (s.nextlevel (2 * i + 1)).xorIf CWR flag
    let highSum ← sumWords (· + ·) leftchild rightchild s.highSum
    let highXor ← sumWords (· ^^^ ·) leftchild rightchild s.highXor
    some
      { nextlevel :=
          if saveExpansion then
            Function.update (Function.update s.nextlevel (2 * i) leftchild) (2 * i + 1) rightchild
          else s.nextlevel
        lowSum := s.lowSum + (lowWord (leftchild 0) + lowWord (rightchild 0))
        highSum, highXor })
    ⟨nextlevel, 0, 0, 0⟩

/-- At every width it does, and makes the layer of `finalizeLeafLayerNothreads`. -/
theorem finalizeLeafLayerLoop_eq (hwidth : 1 ≤ WIDTH) {start stop : Nat} (hle : start ≤ stop)
    (curlevel : Nat → DPFnode) (saveExpansion : Bool) (CWL CWR : LeafNode WIDTH)
    (nextlevel : Nat → LeafNode WIDTH) :
    finalizeLeafLayerLoop start stop curlevel saveExpansion CWL CWR nextlevel =
      some (finalizeLeafLayerNothreads start stop curlevel saveExpansion CWL CWR nextlevel) := by
  refine forRangeOpt_eq_forRange hle (fun i s => ?_) _
  simp only [sumWords_spec hwidth, Option.bind_eq_bind, Option.bind_some]

end RDPF

/-! ## The scaled entries of a pair -/

/-- The XOR-shared scaled entries of every leaf of a level are inside the bounds, add up to the scaled
values and vanish off the target. -/
structure ScaledXsOk (prg : PRG WIDTH) (level t : Nat) (dpf : Player → RDPF WIDTH)
    (xs : Player → Nat → Fin WIDTH → RegXS) : Prop where
  inBounds : ∀ p, ∀ i < 2 ^ level, RDPF.scaledXsLoop ((dpf p).leaf prg i) = some (xs p i)
  total : ∀ j, ∑ i ∈ Finset.range (2 ^ level), (xs .p0 i j + xs .p1 i j) =
    ((dpf .p0).li.getD ((dpf .p0).maxdepth - level) default).scaledXor j +
      ((dpf .p1).li.getD ((dpf .p1).maxdepth - level) default).scaledXor j
  off : ∀ j, ∀ i < 2 ^ level, i ≠ t → xs .p0 i j + xs .p1 i j = 0

/-- The additively shared scaled entries likewise. -/
structure ScaledAsOk (prg : PRG WIDTH) (level t : Nat) (dpf : Player → RDPF WIDTH)
    (s : Player → Nat → Fin WIDTH → RegAS) : Prop where
  inBounds : ∀ p, ∀ i < 2 ^ level, (dpf p).scaledAs ((dpf p).leaf prg i) = some (s p i)
  total : ∀ j, ∑ i ∈ Finset.range (2 ^ level), (s .p0 i j + s .p1 i j) =
    ((dpf .p0).li.getD ((dpf .p0).maxdepth - level) default).scaledSum j +
      ((dpf .p1).li.getD ((dpf .p1).maxdepth - level) default).scaledSum j
  off : ∀ j, ∀ i < 2 ^ level, i ≠ t → s .p0 i j + s .p1 i j = 0

/-- Shares of `total` at one index and of 0 elsewhere add up to `total`. -/
theorem sum_unit {T : Type} [AddCommMonoid T] {f : Nat → T} {n t : Nat} {total : T} (ht : t < n)
    (hf : ∀ i < n, f i = if i = t then total else 0) : ∑ i ∈ Finset.range n, f i = total := by
  rw [Finset.sum_congr rfl fun i hi => hf i (Finset.mem_range.mp hi), Finset.sum_ite_eq',
    if_pos (Finset.mem_range.mpr ht)]

section Pair

variable {prg : PRG WIDTH} {save : Bool} {level t : Nat} {dpf : Player → RDPF WIDTH}

theorem LeafLevelOk.scaledXsOk (h : LeafLevelOk prg save level t dpf) (hwidth : 1 ≤ WIDTH)
    (hlevel : 1 ≤ level) (hmax : ∀ p, level ≤ (dpf p).maxdepth) :
    ScaledXsOk prg level t (fun p => (dpf p).setDepth level)
      fun p i => RDPF.scaledXs ((dpf p).leafAt prg level i) where
  inBounds p i hi := by rw [h.leaf_eq hlevel (hmax p) hi, RDPF.scaledXsLoop_eq hwidth]
  total j := sum_unit h.differ.lt fun _ hi => h.scaledShares_xs hi j
  off j i hi hne := (h.scaledShares_xs hi j).trans (if_neg hne)

/-- The entry of `scaled_as`, where it stays in bounds. -/
def signedWord (dpf : RDPF WIDTH) (leaf : LeafNode WIDTH) (j : Fin WIDTH) : RegAS :=
  ⟨if dpf.whichhalf then -scaledWord leaf j else scaledWord leaf j⟩

theorem LeafLevelOk.scaledAsOk (h : LeafLevelOk prg save level t dpf)
    (hhalf : ∀ p, (dpf p).whichhalf = p.bit) (hwidth : WIDTH = 1 ∨ WIDTH = 2) (hlevel : 1 ≤ level)
    (hmax : ∀ p, level ≤ (dpf p).maxdepth) :
    ScaledAsOk prg level t (fun p => (dpf p).setDepth level)
      fun p i => signedWord (dpf p) ((dpf p).leafAt prg level i) := by
  have hshares (i : Nat) (hi : i < 2 ^ level) (j : Fin WIDTH) :=
    h.scaledShares_as hhalf hwidth hi (fun p => (dpf p).scaledAs_eq hwidth _) j
  refine ⟨fun p i hi => ?_, fun j => ?_, fun j i hi hne => ?_⟩
  · rw [h.leaf_eq hlevel (hmax p) hi]
    exact (dpf p).scaledAs_eq hwidth _
  · exact sum_unit h.differ.lt fun i hi => hshares i hi j
  · exact (hshares i hi j).trans (if_neg hne)

end Pair

/-- From width 3 on the additively shared entries of no leaf are inside the bounds. -/
theorem not_scaledAsOk (hwidth : 3 ≤ WIDTH) (prg : PRG WIDTH) (level t : Nat)
    (dpf : Player → RDPF WIDTH) (s : Player → Nat → Fin WIDTH → RegAS) :
    ¬ScaledAsOk prg level t dpf s := by
  intro h
  have hsome := h.inBounds .p0 0 (Nat.two_pow_pos level)
  rw [RDPF.scaledAs_none hwidth] at hsome
  cases hsome

/-- Both kinds of scaled entries are right, at one leaf level of a pair. -/
def ScaledOk (prg : PRG WIDTH) (level t : Nat) (dpf : Player → RDPF WIDTH) : Prop :=
  (∃ xs, ScaledXsOk prg level t dpf xs) ∧ ∃ s, ScaledAsOk prg level t dpf s

/-- **The scaled entries**, for every width and every pair of halves that the constructor makes, which it
does up to depth 30: those of `scaled_xs` are right up to the widest leaf that the PRG fills, and those of
both are right if and only if the width is at most 2. -/
theorem scaled_iff (hwidth : 1 ≤ WIDTH) (prg : PRG WIDTH) (nthreads : Player → ℕ+)
    (seeds : Player → DPFnode) (target : Player → RegXS) (depth : Nat) (incremental save : Bool)
    (triples : Nat → LevelTriples WIDTH) :
    (depth ≤ 30 → ∃ dpf, RDPF.create prg nthreads seeds target depth incremental save triples = some dpf) ∧
    ∀ dpf, RDPF.create prg nthreads seeds target depth incremental save triples = some dpf →
      ∀ level, 1 ≤ level → level ≤ depth → (incremental = true ∨ level = depth) →
        ∃ t, t = targetAt (reconstructTarget target) depth level ∧
          (WIDTH ≤ 5 → ∃ xs, ScaledXsOk prg level t (fun p => (dpf p).setDepth level) xs) ∧
          (ScaledOk prg level t (fun p => (dpf p).setDepth level) ↔ WIDTH ≤ 2) := by
  refine ⟨fun hdepth => ?_, fun dpf hcreate level h1 h2 hleaf => ⟨_, rfl, ?_⟩⟩
  · obtain ⟨dpf, hcreate, -⟩ := create_spec prg nthreads seeds target hdepth incremental save triples
    exact ⟨dpf, hcreate⟩
  have hdepth : depth ≤ RDPF.maxKeyDepth := by
    by_contra hbig
    rw [create_eq_none prg nthreads seeds target (not_le.mp hbig)] at hcreate
    cases hcreate
  obtain ⟨dpf', hcreate', hshape, hok⟩ :=
    create_spec prg nthreads seeds target hdepth incremental save triples
  obtain rfl : dpf' = dpf := Option.some.inj (hcreate'.symm.trans hcreate)
  have h := hok level h1 h2 hleaf
  have hmax p : level ≤ (dpf' p).maxdepth := (hshape p).maxdepth.symm ▸ h2
  have hxs := h.scaledXsOk hwidth h1 hmax
  refine ⟨fun _ => ⟨_, hxs⟩, fun ⟨_, s, hs⟩ => ?_, fun hle => ⟨⟨_, hxs⟩, ?_⟩⟩
  · by_contra hbig
    exact not_scaledAsOk (not_le.mp hbig) prg level _ _ s hs
  · exact ⟨_, h.scaledAsOk (fun p => (hshape p).whichhalf) (by omega) h1 hmax⟩

/-- A triple of zeros. -/
def zeroTriple : NodeSelectTriples := requestNodeselecttriples (fun _ => false) (fun _ => 0) 0

/-- The only level of an RDPF of width 2 and depth 1. -/
theorem scaled_iff_two : ∃ dpf : Player → RDPF 2,
    RDPF.create (zeroPrg 2) (fun _ => 1) (fun _ => 0) (fun _ => ⟨0⟩) 1 false false
      (fun _ => ⟨zeroTriple, fun _ => zeroTriple⟩) = some dpf ∧
    ScaledOk (zeroPrg 2) 1 0 (fun p => (dpf p).setDepth 1) := by
  obtain ⟨hmakes, hpairs⟩ := scaled_iff (by decide) (zeroPrg 2) (fun _ => 1) (fun _ => 0)
    (fun _ => ⟨0⟩) 1 false false fun _ => ⟨zeroTriple, fun _ => zeroTriple⟩
  obtain ⟨dpf, hcreate⟩ := hmakes (by decide)
  obtain ⟨t, ht, -, hiff⟩ := hpairs dpf hcreate 1 le_rfl le_rfl (Or.inr rfl)
  have hzero : t = 0 := ht.trans (by decide)
  exact ⟨dpf, hcreate, hzero ▸ hiff.mpr le_rfl⟩

/-- The only level of an RDPF of width 3, the widest in use, and depth 1. -/
theorem not_scaledOk_three : ∃ dpf : Player → RDPF 3,
    RDPF.create (zeroPrg 3) (fun _ => 1) (fun _ => 0) (fun _ => ⟨0⟩) 1 false false
      (fun _ => ⟨zeroTriple, fun _ => zeroTriple⟩) = some dpf ∧
    (∀ p leaf, (dpf p).scaledAs leaf = none) ∧
    ¬ScaledOk (zeroPrg 3) 1 0 (fun p => (dpf p).setDepth 1) := by
  obtain ⟨dpf, hcreate, -⟩ := create_spec (zeroPrg 3) (fun _ => 1) (fun _ => 0)
    (fun _ => ⟨0⟩) (show 1 ≤ 30 by decide) false false fun _ => ⟨zeroTriple, fun _ => zeroTriple⟩
  refine ⟨dpf, hcreate, fun p leaf => RDPF.scaledAs_none le_rfl (dpf p) leaf, ?_⟩
  rintro ⟨-, s, hs⟩
  exact not_scaledAsOk le_rfl (zeroPrg 3) 1 0 _ s hs

end Prac
