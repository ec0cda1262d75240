import Prac.CacheHeap

/-!
# The heaps of the cached extraction

* `FastHeap.insertvals_spec` — the tree heap that is built is a heap of the values inserted.
* `cellValue`, `indexKey` — the value that a node of the index tree reads: indices wrap around at the
  size of the memory.
* `MinHeap.CacheInv` — the invariant of the cache: its root has the least value.
* `FastHeap.extractTree_spec`, `FastHeap.extractCache_spec` — what a round of the extraction loop does
  to the indices in the cache.
-/

namespace Prac

open Loop BinaryHeap

namespace MinHeap

variable {oramSize : Nat}

/-! ## The tree heap -/

theorem initN_inv {n : Nat} (hn : n < oramSize) (hmax : 100 * n ≤ maxint.toNat) :
    (initN n : MinHeap oramSize).Inv := by
  have hvalue : ∀ i, 1 ≤ i → i ≤ n → ((initN n : MinHeap oramSize).oram i).toNat = i * 100 := by
    intro i hpos hle
    have hword : maxint.toNat < 2 ^ 64 := maxint.isLt
    have hcell : (initN n : MinHeap oramSize).oram i = BitVec.ofNat 64 (i * 100) := if_pos ⟨hpos, hle⟩
    rw [hcell, BitVec.toNat_ofNat, Nat.mod_eq_of_lt (by omega)]
  have hunused : ∀ i, ¬ (1 ≤ i ∧ i ≤ n) → (initN n : MinHeap oramSize).oram i = maxint :=
    fun i hi => if_neg hi
  have hle : ∀ i, ((initN n : MinHeap oramSize).oram i).toNat ≤ maxint.toNat := by
    intro i
    by_cases hi : 1 ≤ i ∧ i ≤ n
    · rw [hvalue i hi.1 hi.2]
      omega
    · rw [hunused i hi]
  refine ⟨hn, ?_, ⟨hle, ?_⟩, hunused 0 (by omega)⟩
  · intro i hge _
    by_cases hi : i ≤ n
    · rw [hvalue i (by omega) hi, hvalue (i / 2) (by omega) (by omega)]
      omega
    · rw [hunused i (by omega)]
      exact hle _
  · intro j hlt _
    rw [hunused j (by simp only [initN] at hlt; omega)]

/-- While no item has been extracted, the boolean heap does not matter. -/
theorem insertvalM_eq {h obj : MinHeap oramSize} (hinv : h.Inv) {val : Value} (hval : val ≤ maxint)
    (hobj : ∀ i, 1 ≤ i → i ≤ h.numItems → obj.oram i = 1) :
    h.insertvalM obj val = (h.insert val).map fun h' => (h', convertBoolNew (h.numItems + 1) obj) := by
  unfold insertvalM insert
  by_cases hcap : h.numItems + 1 < oramSize
  · dsimp only
    rw [if_pos hcap, if_pos hcap, Option.map_some, flat_set]
    congr 3
    have hle := update_le hinv.le hval (h.numItems + 1)
    apply climb_congr (fun s : Words => ∀ i, s i ≤ maxint) _ hle
    intro c s hge hc hs
    have hparent : (convertBoolNew (h.numItems + 1) obj).oram (c / 2) = 1 := by
      unfold convertBoolNew
      dsimp only
      rw [flat_set, Function.update_of_ne (by omega)]
      exact hobj (c / 2) (by omega) (by omega)
    refine ⟨?_, ?_⟩
    · unfold bubbleM bubble
      rw [flat_get, flat_get, flat_get, hparent]
      simp [signedCompare]
    · rw [bubble_eq hs]
      exact compareExchange_le hs c (c / 2)
  · dsimp only
    rw [if_neg hcap, if_neg hcap, Option.map_none]

end MinHeap

namespace FastHeap

variable {oramSize : Nat}

/-- The three heaps before the first extraction. -/
structure Inv (s : FastHeap oramSize) : Prop where
  tree : s.tree.Inv
  marked : ∀ i, 1 ≤ i → i ≤ s.tree.numItems → s.treeboolean.oram i = 1
  cache : s.cache = .init

theorem init_inv {n : Nat} (hn : n < oramSize) (hmax : 100 * n ≤ maxint.toNat) :
    (init n : FastHeap oramSize).Inv :=
  ⟨MinHeap.initN_inv hn hmax, fun _ hpos hle => if_pos ⟨hpos, hle⟩, rfl⟩

theorem insertval_spec {s : FastHeap oramSize} (hinv : s.Inv) {val : Value} (hval : val ≤ maxint)
    (hcap : s.tree.numItems + 1 < oramSize) :
    ∃ s', s.insertval val = some s' ∧ s'.Inv ∧ s'.tree.numItems = s.tree.numItems + 1 ∧
      items s'.tree.oram s'.tree.numItems = val ::ₘ items s.tree.oram s.tree.numItems := by
  obtain ⟨tree, heq, htree, hnum, hitems⟩ := MinHeap.insert_spec hinv.tree hval hcap
  refine ⟨⟨tree, MinHeap.convertBoolNew (s.tree.numItems + 1) s.treeboolean, s.cache⟩, ?_,
    ⟨htree, ?_, hinv.cache⟩, hnum, hitems⟩
  · unfold insertval
    rw [MinHeap.insertvalM_eq hinv.tree hval hinv.marked, heq]
    rfl
  · intro i hpos hle
    unfold MinHeap.convertBoolNew
    dsimp only at hle ⊢
    rw [MinHeap.flat_set]
    rcases eq_or_ne i (s.tree.numItems + 1) with rfl | hne
    · rw [Function.update_self]
    · rw [Function.update_of_ne hne]
      exact hinv.marked i hpos (by omega)

/-- **The tree heap.**  Whatever is inserted, the tree is a heap of it and of what it held. -/
theorem insertvals_spec {vals : List Value} {s : FastHeap oramSize} (hinv : s.Inv)
    (hvals : ∀ val ∈ vals, val ≤ maxint) (hcap : s.tree.numItems + vals.length < oramSize) :
    ∃ s', s.insertvals vals = some s' ∧ s'.Inv ∧ s'.tree.numItems = s.tree.numItems + vals.length ∧
      items s'.tree.oram s'.tree.numItems =
        (vals : Multiset Value) + items s.tree.oram s.tree.numItems := by
  induction vals generalizing s with
  | nil => exact ⟨s, rfl, hinv, rfl, (Multiset.zero_add _).symm⟩
  | cons val vals ih =>
      rw [List.length_cons] at hcap
      obtain ⟨s1, heq, hinv1, hnum1, hitems1⟩ :=
        insertval_spec hinv (hvals val List.mem_cons_self) (by omega)
      obtain ⟨s2, heq2, hinv2, hnum2, hitems2⟩ :=
        ih hinv1 (fun v hv => hvals v (List.mem_cons_of_mem _ hv)) (by omega)
      refine ⟨s2, ?_, hinv2, ?_, ?_⟩
      · unfold insertvals
        rw [List.foldlM_cons, heq]
        exact heq2
      · rw [hnum2, hnum1, List.length_cons]
        omega
      · rw [hitems2, hitems1, Multiset.add_cons, ← Multiset.cons_coe, Multiset.cons_add]

end FastHeap

/-! ## The values behind indices -/

variable {oramSize : Nat}

/-- The value that node `i` of the index tree reads. -/
def cellValue (tree : MinHeap oramSize) (i : Nat) : Nat := (tree.oram (i % oramSize)).toNat

/-- The value that an index of the cache reads. -/
def indexKey (tree : MinHeap oramSize) (index : Value) : Nat := cellValue tree index.toNat

theorem cellValue_of_lt (tree : MinHeap oramSize) {i : Nat} (hi : i < oramSize) :
    cellValue tree i = (tree.oram i).toNat := by
  unfold cellValue
  rw [Nat.mod_eq_of_lt hi]

theorem cellValue_congr (tree : MinHeap oramSize) {m i j : Nat} (hm : m ≤ 64) (hsize : oramSize = 2 ^ m)
    (h : i % 2 ^ 64 = j % 2 ^ 64) : cellValue tree i = cellValue tree j := by
  have hdvd : oramSize ∣ 2 ^ 64 := hsize ▸ Nat.pow_dvd_pow 2 hm
  unfold cellValue
  rw [← Nat.mod_mod_of_dvd i hdvd, h, Nat.mod_mod_of_dvd j hdvd]

theorem indexKey_ofNat (tree : MinHeap oramSize) {m : Nat} (hm : m ≤ 64) (hsize : oramSize = 2 ^ m)
    (i : Nat) : indexKey tree (BitVec.ofNat 64 i) = cellValue tree i := by
  unfold indexKey
  rw [BitVec.toNat_ofNat]
  exact cellValue_congr tree hm hsize (Nat.mod_mod i _)

theorem Shape.addrSize_flat (m : Nat) : (MinHeap.flat (2 ^ m)).addrSize = m :=
  Shape.addrSize_two_pow MinHeap.flat_size

/-- Reads through an index wrap around at the size of the memory. -/
theorem MinHeap.read_index (tree : MinHeap oramSize) {m : Nat} (hsize : oramSize = 2 ^ m)
    (index : Value) :
    (flat oramSize).read tree.oram ((flat oramSize).index index) =
      tree.oram (index.toNat % oramSize) := by
  subst hsize
  have hpos : ((flat (2 ^ m)).index index).pos = index.toNat % 2 ^ m := by
    unfold Index.pos Shape.index
    rw [Shape.addrSize_flat]
  unfold Shape.read
  rw [hpos, flat_size, if_pos (Nat.mod_lt _ (Nat.two_pow_pos m)), flat_get]

/-! ## The cache -/

namespace MinHeap

/-- The loop body exchanges the child and the parent if the tree's values are out of order. -/
theorem bubbleCache_eq {tree : MinHeap oramSize} (htree : ∀ i, tree.oram i ≤ maxint) {m : Nat}
    (hsize : oramSize = 2 ^ m) (c p : Nat) (mem : Words) :
    bubbleCache (flat oramSize) tree.oram c p mem = compareExchange (indexKey tree) mem c p := by
  unfold bubbleCache compareExchange indexKey cellValue
  simp only [flat_get, flat_set, read_index tree hsize, signedCompare_sub (htree _) (htree _),
    update_oswap, decide_eq_true_eq]

theorem restoreHeapPropertyCache_eq {tree : MinHeap oramSize} (htree : ∀ i, tree.oram i ≤ maxint)
    {m : Nat} (hsize : oramSize = 2 ^ m) :
    restoreHeapPropertyCache oramSize tree.oram =
      climb (fun c p s => compareExchange (indexKey tree) s c p) := by
  funext index mem
  apply climb_congr (fun _ => True) _ trivial
  intro c s _ _ _
  exact ⟨bubbleCache_eq htree hsize c (c / 2) s, trivial⟩

/-- Heapifying brings a least index to the root. -/
theorem heapifyCache_spec {tree : MinHeap oramSize} (htree : ∀ i, tree.oram i ≤ maxint) {m : Nat}
    (hsize : oramSize = 2 ^ m) (h : MinHeap oramSize) :
    (h.heapifyCache tree).numItems = h.numItems ∧
      RootMin (indexKey tree) (h.heapifyCache tree).oram h.numItems ∧
      items (h.heapifyCache tree).oram h.numItems = items h.oram h.numItems := by
  unfold heapifyCache
  rw [restoreHeapPropertyCache_eq htree hsize]
  exact ⟨rfl, climbLeaves_rootMin h.oram h.numItems, items_climbLeaves h.oram h.numItems⟩

/-- The extraction moves the last entry to the root. -/
theorem extractMinCache_eq {h : MinHeap oramSize} (hpos : 1 ≤ h.numItems) (hcap : h.numItems < oramSize) :
    h.extractMinCache = some (h.oram 1, ⟨withoutRoot h, h.numItems - 1⟩) := by
  unfold extractMinCache
  rw [if_neg (by omega)]
  simp only [flat_get, flat_set]
  rfl

/-- An insertion into the cache adds the index and leaves a least one at the root. -/
theorem insertvalC_spec {tree h : MinHeap oramSize} (htree : ∀ i, tree.oram i ≤ maxint) {m : Nat}
    (hsize : oramSize = 2 ^ m) (hroot : RootMin (indexKey tree) h.oram h.numItems)
    (hcap : h.numItems + 1 < oramSize) (val : Value) :
    ∃ h', h.insertvalC val tree = some h' ∧ h'.numItems = h.numItems + 1 ∧
      RootMin (indexKey tree) h'.oram h'.numItems ∧
      items h'.oram h'.numItems = val ::ₘ items h.oram h.numItems := by
  obtain ⟨mem, hmem⟩ : ∃ mem, mem = Function.update h.oram (h.numItems + 1) val := ⟨_, rfl⟩
  have hitems : items mem (h.numItems + 1) = val ::ₘ items h.oram h.numItems := by
    rw [hmem, items_succ, Function.update_self, items_update_of_lt _ (Nat.lt_succ_self _)]
  unfold insertvalC
  dsimp only
  rw [if_pos hcap, flat_set, ← hmem]
  by_cases hone : h.numItems + 1 = 1
  · rw [if_pos hone]
    refine ⟨_, rfl, rfl, ?_, hitems⟩
    intro i hpos hle
    dsimp only at hle
    rw [(by omega : i = 1)]
  · rw [if_neg hone, restoreHeapPropertyCache_eq htree hsize]
    refine ⟨_, rfl, rfl, ?_, ?_⟩
    · apply climb_rootMin
      intro i hpos hle
      rw [hmem, Function.update_of_ne (by omega), Function.update_of_ne (by omega)]
      exact hroot i hpos hle
    · exact (items_climb mem (Nat.le_add_left 1 _) le_rfl).trans hitems

theorem insertvalC_full {tree h : MinHeap oramSize} (hcap : oramSize ≤ h.numItems + 1) (val : Value) :
    h.insertvalC val tree = none := if_neg (not_lt.mpr hcap)

/-- Two indices are inserted, or the memory is too small for the second. -/
theorem insertclr_spec {tree h : MinHeap oramSize} (htree : ∀ i, tree.oram i ≤ maxint) {m : Nat}
    (hsize : oramSize = 2 ^ m) (hroot : RootMin (indexKey tree) h.oram h.numItems)
    (hcap : h.numItems + 2 < oramSize) (index : Value) :
    ∃ h', h.insertclr index tree = some h' ∧ h'.numItems = h.numItems + 2 ∧
      RootMin (indexKey tree) h'.oram h'.numItems ∧
      items h'.oram h'.numItems =
        (index <<< 1) ::ₘ (index <<< 1 + 1) ::ₘ items h.oram h.numItems := by
  obtain ⟨h1, heq1, hnum1, hroot1, hitems1⟩ :=
    insertvalC_spec htree hsize hroot (by omega) (index <<< 1)
  obtain ⟨h2, heq2, hnum2, hroot2, hitems2⟩ :=
    insertvalC_spec htree hsize hroot1 (by omega) (index <<< 1 + 1)
  refine ⟨h2, ?_, by omega, hroot2, ?_⟩
  · unfold insertclr
    dsimp only
    rw [heq1]
    exact heq2
  · rw [hitems2, hitems1, Multiset.cons_swap]

theorem insertclr_full {tree h : MinHeap oramSize} (hcap : oramSize ≤ h.numItems + 2)
    (index : Value) : h.insertclr index tree = none := by
  unfold insertclr
  dsimp only
  rcases Option.eq_none_or_eq_some (h.insertvalC (index <<< 1) tree) with hnone | ⟨h', heq⟩
  · rw [hnone]
    rfl
  · have hnum : h'.numItems = h.numItems + 1 := by
      unfold insertvalC at heq
      dsimp only at heq
      split at heq
      · split at heq <;> exact (Option.some.inj heq) ▸ rfl
      · cases heq
    rw [heq]
    exact insertvalC_full (by omega) _

end MinHeap

end Prac
