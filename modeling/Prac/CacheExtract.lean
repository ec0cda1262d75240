import Prac.CacheSpec
import Prac.Lib.BestFirst
import Mathlib.Data.Multiset.Sort

/-!
# When the cached extraction is right

* `FastHeap.extractTree_spec`, `FastHeap.extractCache_spec` — what a round of the extraction loop does
  to the indices in the cache.
* `FastHeap.InRange` — the children of an index that lie past the end of the memory read, after they
  wrap around, no value below a bound.
* `FastHeap.run_explored` — with at least four items the loop is a best-first search in the tree of
  indices, and the nodes taken are in range exactly if the search is contained in the heap.
* `FastHeap.extractsSorted_iff`, `fast_extract_correct_iff` — when the values returned are the least
  ones in order.
-/

namespace Prac

open Loop BinaryHeap BestFirst

namespace FastHeap

variable {oramSize : Nat}

/-! ## One round -/

/-- The indices that the first round pushes: both tests are one too high. -/
def pushed (n : Nat) : Multiset Value := (if 2 < n then {2} else 0) + (if 3 < n then {3} else 0)

theorem pushed_of_four_le {n : Nat} (h : 4 ≤ n) : pushed n = 2 ::ₘ 3 ::ₘ 0 := by
  unfold pushed
  rw [if_pos (by omega), if_pos (by omega)]
  rfl

theorem pushed_three : pushed 3 = 2 ::ₘ 0 := rfl

theorem pushed_of_le_two {n : Nat} (h : n ≤ 2) : pushed n = 0 := by
  unfold pushed
  rw [if_neg (by omega), if_neg (by omega)]
  rfl

/-- The round that finds the cache empty. -/
theorem extractTree_spec {s : FastHeap oramSize} (htree : ∀ i, s.tree.oram i ≤ maxint) {m : Nat}
    (hsize : oramSize = 2 ^ m) (hempty : s.cache.numItems = 0) (hpos : 1 ≤ s.tree.numItems)
    (hcap : s.tree.numItems < oramSize) :
    ∃ s', s.extract = some (s', s.tree.oram 1) ∧ s'.tree = s.tree ∧
      s'.cache.numItems = (pushed s.tree.numItems).card ∧
      RootMin (indexKey s.tree) s'.cache.oram s'.cache.numItems ∧
      items s'.cache.oram s'.cache.numItems = pushed s.tree.numItems := by
  have hroot : RootMin (indexKey s.tree) s.cache.oram s.cache.numItems := by
    intro i hpos' hle
    omega
  have hitems : items s.cache.oram s.cache.numItems = 0 := by rw [hempty, items_zero]
  unfold extract extractTree MinHeap.extractRoot MinHeap.convertBool
  rw [if_pos (by simp [MinHeap.numitems, hempty]), if_pos (by omega), if_pos (by omega)]
  simp only [MinHeap.numitems, MinHeap.flat_get, Option.bind_eq_bind, Option.bind_some,
    decide_eq_true_eq]
  rcases (by omega : 4 ≤ s.tree.numItems ∨ s.tree.numItems = 3 ∨ s.tree.numItems ≤ 2) with
    hfour | hthree | htwo
  · obtain ⟨h1, heq1, hnum1, hroot1, hitems1⟩ :=
      MinHeap.insertvalC_spec htree hsize hroot (by omega) 3
    obtain ⟨h2, heq2, hnum2, hroot2, hitems2⟩ :=
      MinHeap.insertvalC_spec htree hsize hroot1 (by omega) 2
    rw [if_pos (by omega), heq1, Option.bind_some, if_pos (by omega), heq2, pushed_of_four_le hfour]
    refine ⟨_, rfl, rfl, ?_, hroot2, ?_⟩
    · rw [Multiset.card_cons, Multiset.card_cons, Multiset.card_zero]
      dsimp only
      omega
    · dsimp only
      rw [hitems2, hitems1, hitems]
  · obtain ⟨h1, heq1, hnum1, hroot1, hitems1⟩ :=
      MinHeap.insertvalC_spec htree hsize hroot (by omega) 2
    rw [if_neg (by omega), if_pos (by omega), heq1, hthree, pushed_three]
    refine ⟨_, rfl, rfl, ?_, hroot1, ?_⟩
    · rw [Multiset.card_cons, Multiset.card_zero]
      dsimp only
      omega
    · dsimp only
      rw [hitems1, hitems]
  · rw [if_neg (by omega), if_neg (by omega), pushed_of_le_two htwo]
    exact ⟨_, rfl, rfl, hempty, hroot, hitems⟩

/-- The other rounds: an index of a least value leaves the cache, and its children enter. -/
theorem extractCache_spec {s : FastHeap oramSize} (htree : ∀ i, s.tree.oram i ≤ maxint) {m : Nat}
    (hsize : oramSize = 2 ^ m) (hpos : 1 ≤ s.cache.numItems)
    (hcap : s.cache.numItems + 1 < oramSize) :
    ∃ s', s.extract = some (s', s.tree.oram ((s.cache.oram 1).toNat % oramSize)) ∧
      s'.tree = s.tree ∧ s'.cache.numItems = s.cache.numItems + 1 ∧
      RootMin (indexKey s.tree) s'.cache.oram s'.cache.numItems ∧
      items s'.cache.oram s'.cache.numItems =
        (s.cache.oram 1 <<< 1) ::ₘ (s.cache.oram 1 <<< 1 + 1) ::ₘ
          (items s.cache.oram s.cache.numItems).erase (s.cache.oram 1) := by
  obtain ⟨h0, hh0⟩ : ∃ h0 : MinHeap oramSize,
      h0 = ⟨MinHeap.withoutRoot s.cache, s.cache.numItems - 1⟩ := ⟨_, rfl⟩
  have hitems0 : items h0.oram h0.numItems =
      (items s.cache.oram s.cache.numItems).erase (s.cache.oram 1) := by
    rw [← MinHeap.items_withoutRoot hpos, Multiset.erase_cons_head, hh0]
  have hnum0 : h0.numItems = s.cache.numItems - 1 := congrArg MinHeap.numItems hh0
  obtain ⟨hnum1, hroot1, hitems1⟩ := MinHeap.heapifyCache_spec htree hsize h0
  rw [← hnum1] at hroot1
  obtain ⟨h2, heq2, hnum2, hroot2, hitems2⟩ :=
    MinHeap.insertclr_spec htree hsize hroot1 (by omega) (s.cache.oram 1)
  refine ⟨⟨s.tree, s.treeboolean.convertBoolShared (s.cache.oram 1), h2⟩, ?_, rfl, by
    dsimp only; omega, hroot2, ?_⟩
  · unfold extract extractCache MinHeap.extractRoot MinHeap.extractValue
    rw [if_neg (by simp [MinHeap.numitems]; omega), if_pos (by omega)]
    simp only [MinHeap.flat_get, Option.bind_eq_bind, Option.bind_some]
    rw [MinHeap.extractMinCache_eq hpos (by omega), Option.bind_some, ← hh0, heq2,
      MinHeap.read_index s.tree hsize]
    rfl
  · dsimp only
    rw [hitems2, hnum1, hitems1, hitems0]

theorem extractCache_full {s : FastHeap oramSize} (hpos : 1 ≤ s.cache.numItems)
    (hlt : s.cache.numItems < oramSize) (hcap : oramSize ≤ s.cache.numItems + 1) :
    s.extract = none := by
  unfold extract extractCache MinHeap.extractRoot
  rw [if_neg (by simp [MinHeap.numitems]; omega), if_pos (by omega)]
  simp only [Option.bind_eq_bind, Option.bind_some]
  rw [MinHeap.extractMinCache_eq hpos hlt, Option.bind_some, MinHeap.insertclr_full]
  · rfl
  · unfold MinHeap.heapifyCache
    dsimp only
    omega

theorem run_zero (s : FastHeap oramSize) : s.run 0 = some (s, []) := forRangeOpt_self 0 _ _

/-- One more round of the loop. -/
theorem run_succ {s s1 : FastHeap oramSize} {k : Nat} {extracted : List Value}
    (h : s.run k = some (s1, extracted)) :
    s.run (k + 1) = s1.extract.map fun out => (out.1, extracted ++ [out.2]) := by
  have hsucc : s.run (k + 1) = (s.run k).bind _ := forRangeOpt_succ (Nat.zero_le k) _ _
  rw [hsucc, h]
  rfl

/-! ## The loop as a search -/

/-- The children of an index that lie past the end of the memory read no value below `v`. -/
def InRange (tree : MinHeap oramSize) (v : Nat) (index : Value) : Prop :=
  ∀ c, c / 2 = index.toNat → index = 0 ∨ oramSize ≤ c → v ≤ cellValue tree c

theorem region {tree : MinHeap oramSize} (htree : tree.Inv) :
    Region (cellValue tree) (Finset.Icc 1 tree.numItems) := by
  have hcap := htree.capacity
  refine ⟨?_, ?_, ?_⟩
  · intro i hi
    exact (Finset.mem_Icc.mp hi).1
  · intro i hi hge
    have hi := Finset.mem_Icc.mp hi
    exact Finset.mem_Icc.mpr ⟨by omega, by omega⟩
  · intro i hi hge
    have hi := Finset.mem_Icc.mp hi
    rw [cellValue_of_lt tree (by omega), cellValue_of_lt tree (by omega)]
    exact htree.ordered i hge (by omega)

/-- For a node that is an item, or reads a value of at least `v`, children outside the heap and
children outside the memory come to the same. -/
theorem children_iff {tree : MinHeap oramSize} (htree : tree.Inv) {m : Nat} (hm : m ≤ 64)
    (hsize : oramSize = 2 ^ m) {v : Nat} (hv : v ≤ maxint.toNat) {i : Nat} (hpos : 1 ≤ i)
    (hi : tree.numItems < i → v ≤ cellValue tree i) :
    (∀ c, c / 2 = i → c ∉ Finset.Icc 1 tree.numItems → v ≤ cellValue tree c) ↔
      InRange tree v (BitVec.ofNat 64 i) := by
  have hcap := htree.capacity
  have hword : oramSize ≤ 2 ^ 64 := hsize ▸ Nat.pow_le_pow_right Nat.two_pos hm
  have hindex : (BitVec.ofNat 64 i).toNat = i % 2 ^ 64 := BitVec.toNat_ofNat i 64
  unfold InRange
  rw [hindex]
  constructor
  · intro h c' hhalf hout
    have hcongr : cellValue tree (2 * i + c' % 2) = cellValue tree c' :=
      cellValue_congr tree hm hsize (by omega)
    rw [← hcongr]
    apply h _ (by omega)
    intro hmem
    have hmem := Finset.mem_Icc.mp hmem
    have hsame : i % 2 ^ 64 = i := Nat.mod_eq_of_lt (by omega)
    rcases hout with hzero | hlarge
    · have hzero := congrArg BitVec.toNat hzero
      rw [hindex, hsame] at hzero
      exact absurd hzero (by simp; omega)
    · omega
  · intro h c hhalf hout
    have hcongr : cellValue tree (2 * (i % 2 ^ 64) + c % 2) = cellValue tree c :=
      cellValue_congr tree hm hsize (by omega)
    obtain ⟨c', hc'⟩ : ∃ c', c' = 2 * (i % 2 ^ 64) + c % 2 := ⟨_, rfl⟩
    rw [← hcongr, ← hc']
    by_cases hrange : BitVec.ofNat 64 i = 0 ∨ oramSize ≤ c'
    · exact h c' (by omega) hrange
    · obtain ⟨hne, hlt⟩ := not_or.mp hrange
      have hne : i % 2 ^ 64 ≠ 0 := fun hzero => hne (BitVec.eq_of_toNat_eq (hindex.trans hzero))
      rw [cellValue_of_lt tree (not_le.mp hlt)]
      rcases Nat.lt_or_ge tree.numItems c' with hunused | hitem
      · rw [htree.unused hunused (not_le.mp hlt)]
        exact hv
      · -- the index has wrapped around into the heap, so the node is no item itself
        have hlarge : 2 ^ 64 ≤ i := by
          by_contra hsmall
          exact hout (Finset.mem_Icc.mpr ⟨by omega, by omega⟩)
        have hparent := htree.ordered c' (by omega) (not_le.mp hlt)
        have hnode : cellValue tree i = (tree.oram (c' / 2)).toNat := by
          rw [← cellValue_of_lt tree (by omega)]
          exact cellValue_congr tree hm hsize (by omega)
        exact (hnode ▸ hi (by omega)).trans hparent

/-- A search stays contained if the index of the node taken is in range. -/
theorem contained_insert {tree : MinHeap oramSize} (htree : tree.Inv) {m : Nat} (hm : m ≤ 64)
    (hsize : oramSize = 2 ^ m) {v : Nat} (hv : v ≤ maxint.toNat) {P : Finset Nat} {outs : List Nat}
    (h : Search (cellValue tree) P outs) {i : Nat} (hi : i ∈ frontier P) :
    Contained (cellValue tree) (Finset.Icc 1 tree.numItems) v (Insert.insert i P) ↔
      Contained (cellValue tree) (Finset.Icc 1 tree.numItems) v P ∧
        InRange tree v (BitVec.ofNat 64 i) := by
  obtain ⟨hhalf, -⟩ := mem_frontier.mp hi
  have hpos : 1 ≤ i := by
    have := h.closed.2.1 _ hhalf
    omega
  have hnode : Contained (cellValue tree) (Finset.Icc 1 tree.numItems) v P →
      tree.numItems < i → v ≤ cellValue tree i := by
    intro hP hlarge
    exact hP i hhalf fun hmem => absurd (Finset.mem_Icc.mp hmem).2 (not_le.mpr hlarge)
  constructor
  · intro hP'
    have hP : Contained (cellValue tree) (Finset.Icc 1 tree.numItems) v P :=
      fun c hc hcD => hP' c (Finset.mem_insert_of_mem hc) hcD
    refine ⟨hP, (children_iff htree hm hsize hv hpos (hnode hP)).mp ?_⟩
    rintro c rfl hcD
    exact hP' c (Finset.mem_insert_self _ _) hcD
  · rintro ⟨hP, hin⟩ c hc hcD
    rcases Finset.mem_insert.mp hc with heq | hc
    · exact (children_iff htree hm hsize hv hpos (hnode hP)).mpr hin c heq hcD
    · exact hP c hc hcD

/-- After some rounds: the nodes taken, and the indices of the frontier in the cache. -/
structure Explored (tree : MinHeap oramSize) (s : FastHeap oramSize) (outs : List Value)
    (P : Finset Nat) : Prop where
  tree_eq : s.tree = tree
  search : Search (cellValue tree) P (outs.map BitVec.toNat)
  numItems : s.cache.numItems = outs.length + 1
  rootMin : RootMin (indexKey tree) s.cache.oram s.cache.numItems
  cached : items s.cache.oram s.cache.numItems = (frontier P).val.map (BitVec.ofNat 64)

variable {tree : MinHeap oramSize} {s : FastHeap oramSize} {outs : List Value} {P : Finset Nat} {m : Nat}

/-- The root of the cache is a least node of the frontier. -/
theorem Explored.next (h : Explored tree s outs P) (hm : m ≤ 64) (hsize : oramSize = 2 ^ m) :
    ∃ i ∈ frontier P, s.cache.oram 1 = BitVec.ofNat 64 i ∧
      ∀ j ∈ frontier P, cellValue tree i ≤ cellValue tree j := by
  have hmem : ∀ x, x ∈ items s.cache.oram s.cache.numItems ↔
      ∃ i ∈ frontier P, BitVec.ofNat 64 i = x := by
    intro x
    rw [h.cached]
    exact Multiset.mem_map
  have hnum := h.numItems
  obtain ⟨i, hi, hroot⟩ := (hmem _).mp (mem_items.mpr ⟨1, le_rfl, by omega, rfl⟩)
  refine ⟨i, hi, hroot.symm, ?_⟩
  intro j hj
  obtain ⟨p, hpos, hle, hp⟩ := mem_items.mp ((hmem _).mpr ⟨j, hj, rfl⟩)
  have hkey := h.rootMin p hpos hle
  rwa [hp, ← hroot, indexKey_ofNat tree hm hsize, indexKey_ofNat tree hm hsize] at hkey

/-- A round takes the next node of the search. -/
theorem Explored.step (h : Explored tree s outs P) (htree : tree.Inv) (hm : m ≤ 64)
    (hsize : oramSize = 2 ^ m) (hcap : outs.length + 2 < oramSize) :
    ∃ s' out i, s.extract = some (s', out) ∧ out.toNat = cellValue tree i ∧ i ∈ frontier P ∧
      (∀ j ∈ frontier P, cellValue tree i ≤ cellValue tree j) ∧
      s.cache.oram 1 = BitVec.ofNat 64 i ∧ Explored tree s' (outs ++ [out]) (insert i P) := by
  obtain ⟨i, hi, hroot, hleast⟩ := h.next hm hsize
  obtain rfl := h.tree_eq
  have hnum := h.numItems
  obtain ⟨s', heq, htree', hnum', hroot', hitems'⟩ :=
    extractCache_spec htree.le hsize (by omega) (by omega)
  have hout : (s.tree.oram ((s.cache.oram 1).toNat % oramSize)).toNat = cellValue s.tree i := by
    rw [hroot]
    exact indexKey_ofNat s.tree hm hsize i
  obtain ⟨-, hpos, hclosed⟩ := h.search.closed
  have hipos : 1 ≤ i := by
    have := hpos _ (mem_frontier.mp hi).1
    omega
  refine ⟨s', _, i, heq, hout, hi, hleast, hroot, htree', ?_, ?_, hroot', ?_⟩
  · rw [List.map_append, List.map_singleton, hout]
    exact h.search.pop hi hleast
  · rw [hnum', hnum, List.length_append, List.length_singleton]
  · have hleft : BitVec.ofNat 64 i <<< 1 = BitVec.ofNat 64 (2 * i) := by
      apply BitVec.eq_of_toNat_eq
      rw [BitVec.toNat_shiftLeft, Nat.shiftLeft_eq, BitVec.toNat_ofNat, BitVec.toNat_ofNat]
      omega
    have hright : BitVec.ofNat 64 i <<< 1 + 1 = BitVec.ofNat 64 (2 * i + 1) := by
      rw [hleft, BitVec.ofNat_add]
      rfl
    rw [hitems', h.cached, hroot, hright, hleft, frontier_insert hipos hi hclosed,
      Multiset.map_cons, Multiset.map_cons, Multiset.map_erase_of_mem _ _ (Finset.mem_val.mpr hi)]

/-- The indices that the rounds from the second to the `j`th take are in range. -/
def TakenInRange (s : FastHeap oramSize) (v j : Nat) : Prop :=
  ∀ j' outs s', 1 ≤ j' → j' < j → s.run j' = some (s', outs) → InRange s.tree v (s'.cache.oram 1)

theorem takenInRange_succ {s s1 : FastHeap oramSize} {v j : Nat} {extracted : List Value}
    (hpos : 1 ≤ j) (hrun : s.run j = some (s1, extracted)) :
    TakenInRange s v (j + 1) ↔ TakenInRange s v j ∧ InRange s.tree v (s1.cache.oram 1) := by
  constructor
  · intro h
    refine ⟨fun j' outs' s' hge hj' hrun' => h j' outs' s' hge (by omega) hrun', ?_⟩
    exact h j extracted s1 hpos (Nat.lt_succ_self j) hrun
  · rintro ⟨h, hin⟩ j' outs' s' hge hj' hrun'
    rcases Nat.lt_succ_iff_lt_or_eq.mp hj' with hlt | rfl
    · exact h j' outs' s' hge hlt hrun'
    · obtain ⟨rfl, rfl⟩ : s1 = s' ∧ extracted = outs' := by simpa [hrun] using hrun'
      exact hin

/-- The loop on at least four items is a best-first search, and the indices taken are in range exactly
if the search is contained in the heap. -/
theorem run_explored {s : FastHeap oramSize} (hinv : s.Inv) (hm : m ≤ 64) (hsize : oramSize = 2 ^ m)
    (hfour : 4 ≤ s.tree.numItems) {j : Nat} (hpos : 1 ≤ j) (hcap : j + 1 < oramSize) :
    ∃ s' outs P, s.run j = some (s', outs) ∧ outs.length = j ∧ Explored s.tree s' outs P ∧
      ∀ v ≤ maxint.toNat, TakenInRange s v j ↔
        Contained (cellValue s.tree) (Finset.Icc 1 s.tree.numItems) v P := by
  have hlt := hinv.tree.capacity
  induction j, hpos using Nat.le_induction with
  | base =>
      obtain ⟨s', heq, htree', hnum', hroot', hitems'⟩ :=
        extractTree_spec hinv.tree.le hsize (by rw [hinv.cache]; rfl) (by omega) hlt
      rw [pushed_of_four_le hfour] at hnum' hitems'
      have hone : (s.tree.oram 1).toNat = cellValue s.tree 1 :=
        (cellValue_of_lt s.tree (by omega)).symm
      refine ⟨s', [s.tree.oram 1], {1}, ?_, rfl, ⟨htree', ?_, hnum', hroot', hitems'⟩, ?_⟩
      · rw [run_succ s.run_zero, heq]
        rfl
      · rw [List.map_singleton, hone]
        exact .root
      · intro v _
        constructor
        · intro _ c hhalf hout
          have hhalf := Finset.mem_singleton.mp hhalf
          exact absurd (Finset.mem_Icc.mpr ⟨by omega, by omega⟩) hout
        · intro _ j' outs s'' hge hj'
          omega
  | succ j hpos ih =>
      obtain ⟨s1, outs, P, hrun, hlen, hexp, hrange⟩ := ih (by omega)
      obtain ⟨s2, out, i, hextract, hout, hi, hleast, hroot, hexp'⟩ :=
        hexp.step hinv.tree hm hsize (by omega)
      refine ⟨s2, outs ++ [out], Insert.insert i P, ?_, ?_, hexp', ?_⟩
      · rw [run_succ hrun, hextract]
        rfl
      · rw [List.length_append, hlen, List.length_singleton]
      · intro v hv
        rw [takenInRange_succ hpos hrun, hrange v hv, hroot,
          contained_insert hinv.tree hm hsize hv hexp.search hi]

/-! ## The values returned -/

/-- The values of the tree heap, sorted. -/
def sortedValues (s : FastHeap oramSize) : List Nat :=
  ((items s.tree.oram s.tree.numItems).map BitVec.toNat).sort (· ≤ ·)

/-- `k` rounds return the `k` least values of the tree heap, in order. -/
def ExtractsSorted (s : FastHeap oramSize) (k : Nat) : Prop :=
  ∃ s' extracted, s.run k = some (s', extracted) ∧
    extracted.map BitVec.toNat = s.sortedValues.take k

theorem sortedValues_spec {s : FastHeap oramSize} (hinv : s.Inv) :
    SortedValues (cellValue s.tree) (Finset.Icc 1 s.tree.numItems) s.sortedValues := by
  have hcap := hinv.tree.capacity
  refine ⟨?_, Multiset.pairwise_sort _ _⟩
  unfold sortedValues items
  rw [Multiset.sort_eq, Multiset.map_map]
  apply Multiset.map_congr rfl
  intro i hi
  have hi := Finset.mem_Icc.mp (Finset.mem_val.mp hi)
  exact cellValue_of_lt s.tree (by omega)

theorem sortedValues_length {s : FastHeap oramSize} (hinv : s.Inv) :
    s.sortedValues.length = s.tree.numItems := by
  rw [(sortedValues_spec hinv).length, Nat.card_Icc, Nat.add_sub_cancel]

theorem sortedValues_eq {s : FastHeap oramSize} {l : List Nat} (hl : l.Pairwise (· ≤ ·))
    (h : (l : Multiset Nat) = (items s.tree.oram s.tree.numItems).map BitVec.toNat) :
    s.sortedValues = l := by
  apply List.Perm.eq_of_pairwise' (Multiset.pairwise_sort _ _) hl
  apply Multiset.coe_eq_coe.mp
  rw [h]
  exact Multiset.sort_eq _ _

/-- The condition on the heap and the rounds under which the values are returned in order: one round;
two items that are equal; three items of which the second in the array is not above the third, which
is as small as what the indices 4 and 5 read; or at least four items, a cache that does not outgrow
the memory, and only indices in range before the last round. -/
def Reliable (s : FastHeap oramSize) (k : Nat) : Prop :=
  k ≤ 1 ∨
  (s.tree.numItems = 2 ∧ (s.tree.oram 1).toNat = (s.tree.oram 2).toNat) ∨
  (s.tree.numItems = 3 ∧ (s.tree.oram 2).toNat ≤ (s.tree.oram 3).toNat ∧
    (k = 3 → (s.tree.oram 3).toNat = min (cellValue s.tree 4) (cellValue s.tree 5))) ∨
  (4 ≤ s.tree.numItems ∧ k + 1 < oramSize ∧
    TakenInRange s (s.sortedValues.getD (k - 1) 0) (k - 1))

/-- One round at most. -/
theorem extractsSorted_of_le_one {s : FastHeap oramSize} (hinv : s.Inv) (hsize : oramSize = 2 ^ m)
    {k : Nat} (hk : k ≤ s.tree.numItems) (hone : k ≤ 1) : s.ExtractsSorted k := by
  have hcap := hinv.tree.capacity
  rcases (by omega : k = 0 ∨ k = 1) with rfl | rfl
  · exact ⟨s, [], s.run_zero, rfl⟩
  · obtain ⟨s', heq, -⟩ := extractTree_spec hinv.tree.le hsize (by rw [hinv.cache]; rfl) hk hcap
    refine ⟨s', [s.tree.oram 1], by rw [run_succ s.run_zero, heq]; rfl, ?_⟩
    have htake := (region hinv.tree).take_one (sortedValues_spec hinv)
      (by rw [sortedValues_length hinv]; exact hk)
    rw [← htake, cellValue_of_lt s.tree (by omega)]
    rfl

/-- At least four items. -/
theorem extractsSorted_iff_of_four_le {s : FastHeap oramSize} (hinv : s.Inv) (hm : m ≤ 64)
    (hsize : oramSize = 2 ^ m) {k : Nat} (hk : k ≤ s.tree.numItems) (hfour : 4 ≤ s.tree.numItems)
    (htwo : 2 ≤ k) :
    s.ExtractsSorted k ↔ k + 1 < oramSize ∧
      TakenInRange s (s.sortedValues.getD (k - 1) 0) (k - 1) := by
  have hcap := hinv.tree.capacity
  have hlen := sortedValues_length hinv
  obtain ⟨j, rfl⟩ : ∃ j, k = j + 1 := ⟨k - 1, by omega⟩
  rw [Nat.add_sub_cancel]
  obtain ⟨s1, outs, P, hrun, houts, hexp, hrange⟩ :=
    run_explored hinv hm hsize hfour (j := j) (by omega) (by omega)
  have hnum := hexp.numItems
  by_cases hroom : j + 1 + 1 < oramSize
  · obtain ⟨s2, out, i, hextract, hout, hi, hleast, -, -⟩ := hexp.step hinv.tree hm hsize (by omega)
    obtain ⟨v, hv⟩ : ∃ v, s.sortedValues[j]? = some v :=
      ⟨_, List.getElem?_eq_getElem (by omega : j < s.sortedValues.length)⟩
    have hmax : v ≤ maxint.toNat := by
      have hmem : v ∈ (items s.tree.oram s.tree.numItems).map BitVec.toNat :=
        (Multiset.mem_sort _).mp (List.mem_of_getElem? hv)
      obtain ⟨x, hx, rfl⟩ := Multiset.mem_map.mp hmem
      obtain ⟨i, -, -, rfl⟩ := mem_items.mp hx
      exact BitVec.le_def.mp (hinv.tree.le i)
    have hsearch := hexp.search.eq_take_iff (region hinv.tree) (sortedValues_spec hinv)
      (v := v) (by rw [List.length_map, houts]; exact hv) hi hleast
    rw [List.length_map, houts] at hsearch
    have hget : s.sortedValues.getD j 0 = v := by
      rw [List.getD_eq_getElem?_getD, hv, Option.getD_some]
    have hrun' : s.run (j + 1) = some (s2, outs ++ [out]) := by
      rw [run_succ hrun, hextract]
      rfl
    have hmap : (outs ++ [out]).map BitVec.toNat = outs.map BitVec.toNat ++ [cellValue s.tree i] := by
      rw [List.map_append, List.map_singleton, hout]
    rw [hget, hrange v hmax, ← hsearch, ← hmap]
    constructor
    · rintro ⟨s', extracted, heq, hsorted⟩
      obtain ⟨-, rfl⟩ : s2 = s' ∧ outs ++ [out] = extracted := by simpa [hrun'] using heq
      exact ⟨hroom, hsorted⟩
    · rintro ⟨-, hsorted⟩
      exact ⟨s2, _, hrun', hsorted⟩
  · constructor
    · rintro ⟨s', extracted, heq, -⟩
      rw [run_succ hrun, extractCache_full (by omega) (by omega) (by omega)] at heq
      cases heq
    · rintro ⟨hlt, -⟩
      exact absurd hlt hroom

/-- With two items the root is returned twice. -/
theorem extractsSorted_iff_two {s : FastHeap oramSize} (hinv : s.Inv) (hsize : oramSize = 2 ^ m)
    (hn : s.tree.numItems = 2) :
    s.ExtractsSorted 2 ↔ (s.tree.oram 1).toNat = (s.tree.oram 2).toNat := by
  have hcap := hinv.tree.capacity
  have hle := hinv.tree.ordered 2 le_rfl (by omega)
  obtain ⟨s1, heq1, htree1, hnum1, -, -⟩ :=
    extractTree_spec hinv.tree.le hsize (by rw [hinv.cache]; rfl) (by omega) hcap
  rw [pushed_of_le_two hn.le, Multiset.card_zero] at hnum1
  obtain ⟨s2, heq2, -⟩ :=
    extractTree_spec (htree1 ▸ hinv.tree.le) hsize hnum1 (htree1 ▸ by omega) (htree1 ▸ hcap)
  have hrun : s.run 2 = some (s2, [s.tree.oram 1, s.tree.oram 1]) := by
    have hone : s.run 1 = some (s1, [s.tree.oram 1]) := by
      rw [run_succ s.run_zero, heq1]
      rfl
    rw [run_succ hone, heq2, htree1]
    rfl
  have hsorted : s.sortedValues = [(s.tree.oram 1).toNat, (s.tree.oram 2).toNat] := by
    apply sortedValues_eq (by simpa using hle)
    rw [hn, items_succ, items_succ, items_zero, Multiset.map_cons, Multiset.map_cons]
    rw [Multiset.cons_swap]
    rfl
  unfold ExtractsSorted
  rw [hrun, hsorted]
  simp

/-- With three items the third cell of the array is missed. -/
theorem extractsSorted_iff_three {s : FastHeap oramSize} (hinv : s.Inv) (hsize : oramSize = 2 ^ m)
    (hn : s.tree.numItems = 3) {k : Nat} (hk : k = 2 ∨ k = 3) :
    s.ExtractsSorted k ↔ (s.tree.oram 2).toNat ≤ (s.tree.oram 3).toNat ∧
      (k = 3 → (s.tree.oram 3).toNat = min (cellValue s.tree 4) (cellValue s.tree 5)) := by
  have hcap := hinv.tree.capacity
  have hfour : 4 ≤ oramSize := by omega
  have hle2 := hinv.tree.ordered 2 le_rfl (by omega)
  have hle3 := hinv.tree.ordered 3 (by omega) (by omega)
  obtain ⟨s1, heq1, htree1, hnum1, hroot1, hitems1⟩ :=
    extractTree_spec hinv.tree.le hsize (by rw [hinv.cache]; rfl) (by omega) hcap
  rw [hn, pushed_three] at hnum1 hitems1
  have hnum1 : s1.cache.numItems = 1 := hnum1
  rw [hnum1] at hitems1
  have hone : s1.cache.oram 1 = 2 := by
    have hmem : s1.cache.oram 1 ∈ (2 ::ₘ 0 : Multiset Value) :=
      hitems1 ▸ mem_items.mpr ⟨1, le_rfl, le_rfl, rfl⟩
    simpa using hmem
  obtain ⟨s2, heq2, htree2, hnum2, hroot2, hitems2⟩ :=
    extractCache_spec (htree1 ▸ hinv.tree.le) hsize (by omega) (by omega)
  rw [htree1, hone] at heq2
  have hsecond : s.tree.oram ((2 : Value).toNat % oramSize) = s.tree.oram 2 := by
    rw [Nat.mod_eq_of_lt (lt_of_lt_of_le (by decide) hfour)]
    rfl
  have hrun2 : s.run 2 = some (s2, [s.tree.oram 1, s.tree.oram 2]) := by
    have hone : s.run 1 = some (s1, [s.tree.oram 1]) := by
      rw [run_succ s.run_zero, heq1]
      rfl
    rw [run_succ hone, heq2, hsecond]
    rfl
  have hsorted : s.sortedValues = [(s.tree.oram 1).toNat,
      min (s.tree.oram 2).toNat (s.tree.oram 3).toNat,
      max (s.tree.oram 2).toNat (s.tree.oram 3).toNat] := by
    apply sortedValues_eq
    · simp [hle2, hle3]
    · rw [hn, items_succ, items_succ, items_succ, items_zero, Multiset.map_cons, Multiset.map_cons,
        Multiset.map_cons]
      apply Multiset.coe_eq_coe.mpr
      rcases le_total (s.tree.oram 2).toNat (s.tree.oram 3).toNat with hle | hle
      · rw [min_eq_left hle, max_eq_right hle]
        exact List.reverse_perm [_, _, _]
      · rw [min_eq_right hle, max_eq_left hle]
        exact @List.perm_append_comm _ [_] [_, _]
  rcases hk with rfl | rfl
  · unfold ExtractsSorted
    rw [hrun2, hsorted]
    simp
  · obtain ⟨s3, heq3, -⟩ :=
      extractCache_spec (htree2 ▸ htree1 ▸ hinv.tree.le) hsize (by omega) (by omega)
    obtain ⟨x, hx⟩ : ∃ x, x = s2.tree.oram ((s2.cache.oram 1).toNat % oramSize) := ⟨_, rfl⟩
    have hkey : x.toNat = min (cellValue s.tree 4) (cellValue s.tree 5) := by
      have hitems2 : items s2.cache.oram s2.cache.numItems = 4 ::ₘ 5 ::ₘ 0 := by
        rw [hitems2, hnum1, hitems1, hone, Multiset.erase_cons_head]
        rfl
      have hroot : x.toNat = indexKey s.tree (s2.cache.oram 1) := by
        rw [hx, htree2, htree1]
        rfl
      have hleast : ∀ w ∈ items s2.cache.oram s2.cache.numItems,
          x.toNat ≤ indexKey s.tree w := by
        intro w hw
        obtain ⟨p, hpos, hle, rfl⟩ := mem_items.mp hw
        exact hroot ▸ htree1 ▸ hroot2 p hpos hle
      rw [hitems2] at hleast
      apply le_antisymm
      · exact le_min (hleast 4 (by simp)) (hleast 5 (by simp))
      · have hmem : s2.cache.oram 1 ∈ (4 ::ₘ 5 ::ₘ 0 : Multiset Value) :=
          hitems2 ▸ mem_items.mpr ⟨1, le_rfl, by omega, rfl⟩
        rcases Multiset.mem_cons.mp hmem with heq | hmem
        · rw [hroot, heq]
          exact min_le_left _ _
        · rw [hroot, Multiset.mem_cons.mp hmem |>.resolve_right (Multiset.notMem_zero _)]
          exact min_le_right _ _
    have hrun3 : s.run 3 = some (s3, [s.tree.oram 1, s.tree.oram 2, x]) := by
      rw [run_succ hrun2, heq3, ← hx]
      rfl
    unfold ExtractsSorted
    rw [hrun3, hsorted]
    constructor
    · rintro ⟨s', extracted, heq, hlist⟩
      obtain ⟨-, rfl⟩ : s3 = s' ∧ [s.tree.oram 1, s.tree.oram 2, x] = extracted := by
        simpa using heq
      obtain ⟨hmin, hmax⟩ : (s.tree.oram 2).toNat ≤ (s.tree.oram 3).toNat ∧
          x.toNat = max (s.tree.oram 2).toNat (s.tree.oram 3).toNat := by simpa using hlist
      exact ⟨hmin, fun _ => by rw [← hkey, hmax, max_eq_right hmin]⟩
    · rintro ⟨hmin, hmax⟩
      refine ⟨s3, _, rfl, ?_⟩
      have hlast : x.toNat = (s.tree.oram 3).toNat := hkey.trans (hmax rfl).symm
      simp [min_eq_left hmin, max_eq_right hmin, hlast]

/-- The values returned are the least ones in order exactly under the condition. -/
theorem extractsSorted_iff {s : FastHeap oramSize} (hinv : s.Inv) (hm : m ≤ 64)
    (hsize : oramSize = 2 ^ m) {k : Nat} (hk : k ≤ s.tree.numItems) :
    s.ExtractsSorted k ↔ s.Reliable k := by
  unfold Reliable
  by_cases hone : k ≤ 1
  · exact iff_of_true (extractsSorted_of_le_one hinv hsize hk hone) (Or.inl hone)
  rw [or_iff_right hone]
  rcases (by omega : s.tree.numItems = 2 ∨ s.tree.numItems = 3 ∨ 4 ≤ s.tree.numItems) with
    htwo | hthree | hfour
  · obtain rfl : k = 2 := by omega
    rw [extractsSorted_iff_two hinv hsize htwo]
    simp [htwo]
  · rw [extractsSorted_iff_three hinv hsize hthree (by omega)]
    simp [hthree]
  · rw [extractsSorted_iff_of_four_le hinv hm hsize hk hfour (by omega)]
    have htwo : s.tree.numItems ≠ 2 := by omega
    have hthree : s.tree.numItems ≠ 3 := by omega
    simp [hfour, htwo, hthree]

end FastHeap

/-- **The cached extraction.**  For every tree heap that `init` and insertions build in a memory with a
power of two of cells, and every number of extractions up to the number of items, the values returned
are the least ones of the heap, in order, if and only if the condition `FastHeap.Reliable` holds. -/
theorem fast_extract_correct_iff {m n : Nat} (hm : m ≤ 64) {vals : List Value}
    (hcap : n + vals.length < 2 ^ m) (hmax : 100 * n ≤ maxint.toNat)
    (hvals : ∀ val ∈ vals, val ≤ maxint) {k : Nat} (hk : k ≤ n + vals.length) :
    ∃ s, (FastHeap.init n : FastHeap (2 ^ m)).insertvals vals = some s ∧
      items s.tree.oram s.tree.numItems =
        (vals : Multiset Value) + (Finset.Icc 1 n).val.map (fun i => BitVec.ofNat 64 (i * 100)) ∧
      (s.ExtractsSorted k ↔ s.Reliable k) := by
  obtain ⟨s, heq, hinv, hnum, hitems⟩ :=
    FastHeap.insertvals_spec (FastHeap.init_inv (by omega) hmax) hvals hcap
  refine ⟨s, heq, ?_, FastHeap.extractsSorted_iff hinv hm rfl (by rw [hnum]; exact hk)⟩
  rw [hitems]
  congr 1
  apply Multiset.map_congr rfl
  intro i hi
  exact if_pos (Finset.mem_Icc.mp (Finset.mem_val.mp hi))

/-- Four items, of which all are extracted. -/
theorem fast_extract_correct_four : ∃ s,
    (FastHeap.init 3 : FastHeap (2 ^ 3)).insertvals [7] = some s ∧
      items s.tree.oram s.tree.numItems =
        (([7] : List Value) : Multiset Value) +
          (Finset.Icc 1 3).val.map (fun i => BitVec.ofNat 64 (i * 100)) ∧
      (s.ExtractsSorted 4 ↔ s.Reliable 4) :=
  @fast_extract_correct_iff 3 3 (by decide) [7] (by decide) (by simp [maxint]) (by simp [maxint]) 4 (by simp)

/-- Three items are not returned in full: the third round reads an unused cell. -/
theorem fast_extract_three : ∃ s, (FastHeap.init 3 : FastHeap (2 ^ 3)).insertvals [] = some s ∧
    ¬ s.ExtractsSorted 3 := by
  refine ⟨_, rfl, ?_⟩
  rw [FastHeap.extractsSorted_iff (k := 3) (FastHeap.init_inv (by decide) (by simp [maxint]))
    (by decide : 3 ≤ 64) rfl le_rfl]
  simp [FastHeap.Reliable, FastHeap.init, MinHeap.initN, cellValue, maxint]

end Prac
