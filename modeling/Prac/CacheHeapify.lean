import Prac.CacheExtract
import Prac.Lib.LeafPasses

/-!
# The cache after an extraction

`_extract_min_cache` moves the last entry of the cache to the root, and `_heapify_cache` climbs from every
leaf once.

* `MinHeap.CacheOrdered` — heap order by the tree's values behind the entries, and `MinHeap.Comparable` — no
  difference of two of these values overflows.
* `MinHeap.heapifyCache_eq` — then the climbs compare as signed numbers do.
* `MinHeap.extractMinCache_heapifyCache_iff` — when the root has been removed and the cache is a heap again.
-/

namespace Prac

open Loop BinaryHeap

namespace MinHeap

variable {oramSize : Nat}

/-- The value of the tree behind an entry of the cache, as a signed number. -/
def treeValue (tree : MinHeap oramSize) (index : Value) : Int := (extractValue index tree).toInt

/-- The cache `h` is ordered by the values of the tree. -/
def CacheOrdered (tree h : MinHeap oramSize) : Prop := Ordered (treeValue tree) h.oram (h.numItems + 1)

/-- The values behind the entries can be compared by the signs of their differences. -/
def Comparable (tree h : MinHeap oramSize) : Prop :=
  ∀ x ∈ items h.oram h.numItems, ∀ y ∈ items h.oram h.numItems,
    ¬ (extractValue x tree).ssubOverflow (extractValue y tree)

theorem treeValue_eq (tree : MinHeap oramSize) {m : Nat} (hsize : oramSize = 2 ^ m) (index : Value) :
    treeValue tree index = (tree.oram (index.toNat % oramSize)).toInt :=
  congrArg BitVec.toInt (read_index tree hsize index)

/-- The values of a tree heap can be compared. -/
theorem Comparable.of_le {tree : MinHeap oramSize} (htree : ∀ i, tree.oram i ≤ maxint) {m : Nat}
    (hsize : oramSize = 2 ^ m) (h : MinHeap oramSize) : Comparable tree h := by
  have hrange : ∀ i, 0 ≤ (tree.oram i).toInt ∧ (tree.oram i).toInt < 2 ^ 63 := by
    intro i
    have hlt := BitVec.le_def.mp (htree i)
    have hmax : maxint.toNat = 2 ^ 63 - 1 := rfl
    rw [BitVec.toInt_eq_toNat_of_lt (by omega)]
    omega
  intro x _ y _
  have hx := hrange (x.toNat % oramSize)
  have hy := hrange (y.toNat % oramSize)
  unfold extractValue BitVec.ssubOverflow
  rw [read_index tree hsize, read_index tree hsize]
  simp only [Bool.or_eq_true, decide_eq_true_eq]
  omega

/-- The loop body exchanges the child and the parent if the tree's values are out of order. -/
theorem bubbleCache_eq_of_not_overflow {tree : MinHeap oramSize} {mem : Words} {c p : Nat}
    (h : ¬ (extractValue (mem c) tree).ssubOverflow (extractValue (mem p) tree)) :
    bubbleCache (flat oramSize) tree.oram c p mem = compareExchange (treeValue tree) mem c p := by
  have hlt : (signedCompare (extractValue (mem c) tree - extractValue (mem p) tree)).1 =
      decide (treeValue tree (mem c) < treeValue tree (mem p)) := by
    unfold signedCompare treeValue
    rw [BitVec.msb_eq_toInt, BitVec.toInt_sub_of_not_ssubOverflow h, decide_eq_decide]
    exact sub_lt_zero
  unfold extractValue at hlt
  unfold bubbleCache compareExchange
  simp only [flat_get, flat_set]
  rw [update_oswap, hlt]
  simp only [decide_eq_true_eq]

/-- The heapification compares and exchanges along the path of each leaf. -/
theorem heapifyCache_eq {tree h : MinHeap oramSize} (hcomp : Comparable tree h) :
    (h.heapifyCache tree).oram = forRange (h.numItems / 2 + 1) (h.numItems + 1)
      (fun i s => climb (fun c p s => compareExchange (treeValue tree) s c p) i s) h.oram := by
  have hend := @forRange_rel _ _ (restoreHeapPropertyCache oramSize tree.oram)
    (climb fun c p s => compareExchange (treeValue tree) s c p) h.oram h.oram (h.numItems / 2 + 1)
    (h.numItems + 1) (fun _ s t => s = t ∧ items t h.numItems = items h.oram h.numItems) (by omega)
    ⟨rfl, rfl⟩ ?_
  · exact hend.1
  rintro i s t hge hi ⟨rfl, hitems⟩
  refine ⟨?_, ?_⟩
  · unfold restoreHeapPropertyCache
    apply climb_congr (fun mem => items mem h.numItems = items h.oram h.numItems) _ hitems
    intro c mem hc hci hmem
    have hmem_items : ∀ j, 1 ≤ j → j ≤ h.numItems → mem j ∈ items h.oram h.numItems := by
      intro j hpos hj
      rw [← hmem]
      exact mem_items.mpr ⟨j, hpos, hj, rfl⟩
    refine ⟨bubbleCache_eq_of_not_overflow ?_, ?_⟩
    · exact hcomp _ (hmem_items c (by omega) (by omega)) _ (hmem_items (c / 2) (by omega) (by omega))
    · rw [items_compareExchange mem ⟨by omega, by omega⟩ ⟨by omega, by omega⟩, hmem]
  · rw [items_climb s (by omega) (by omega), hitems]

/-- The extraction and the heapification remove the root, and the cache is a heap again. -/
def RemovesRoot (tree h : MinHeap oramSize) : Prop :=
  ∃ h', h.extractMinCache = some (h.oram 1, h') ∧
    h.oram 1 ::ₘ items (h'.heapifyCache tree).oram (h'.heapifyCache tree).numItems =
      items h.oram h.numItems ∧
    CacheOrdered tree (h'.heapifyCache tree)

/-- A cell without a turn, which no climb passes after its parent's turn, does not hold a value below that of the
last entry, or not below that of a sibling, of the cell or of an ancestor, that has an earlier turn. -/
def PassesSuffice (tree h : MinHeap oramSize) : Prop :=
  ∀ v, 2 ≤ v → v < h.numItems → h.numItems - 1 < turn (h.numItems - 1) v →
    treeValue tree (h.oram h.numItems) ≤ treeValue tree (h.oram v) ∨
      ∃ c, 2 ≤ c ∧ Ancestor c v ∧
        turn (h.numItems - 1) (sibling c) < turn (h.numItems - 1) c ∧
        treeValue tree (h.oram (sibling c)) ≤ treeValue tree (h.oram v)

/-- What is offered to a cell, in the words of the cache before the extraction. -/
theorem settled_withoutRoot_iff {tree h : MinHeap oramSize} :
    Settled (treeValue tree) (withoutRoot h) (h.numItems - 1) ↔ PassesSuffice tree h := by
  have hoffered : ∀ v, 2 ≤ v → v < h.numItems →
      (Offered (treeValue tree) (withoutRoot h) (h.numItems - 1) v (treeValue tree (withoutRoot h v)) ↔
        treeValue tree (h.oram h.numItems) ≤ treeValue tree (h.oram v) ∨
          ∃ c, 2 ≤ c ∧ Ancestor c v ∧
            turn (h.numItems - 1) (sibling c) < turn (h.numItems - 1) c ∧
            treeValue tree (h.oram (sibling c)) ≤ treeValue tree (h.oram v)) := by
    intro v hv hlt
    unfold Offered
    rw [withoutRoot_one (by omega), withoutRoot_of_lt hv hlt]
    refine or_congr_right (exists_congr fun c => and_congr_right fun hc => and_congr_right fun _ =>
      and_congr_right fun hturn => ?_)
    have hsibling := two_le_sibling hc
    have hle := le_of_turn_le hsibling (turn_sibling_le hc hturn)
    rw [withoutRoot_of_lt hsibling (by omega)]
  constructor
  · intro hsettled v hv hlt hturn
    exact (hoffered v hv hlt).mp (hsettled v hv (by omega) hturn)
  · intro hpasses v hv hle hturn
    exact (hoffered v hv (by omega)).mpr (hpasses v hv (by omega) hturn)

/-- **The cache after an extraction.**  For every cache in heap order, the extraction and the heapification remove
the root and restore the order if and only if the climbs suffice. -/
theorem extractMinCache_heapifyCache_iff {tree h : MinHeap oramSize} (hpos : 1 ≤ h.numItems)
    (hcap : h.numItems < oramSize) (hcomp : Comparable tree h) (hord : CacheOrdered tree h) :
    RemovesRoot tree h ↔ PassesSuffice tree h := by
  obtain ⟨h', hh'⟩ : ∃ h' : MinHeap oramSize, h' = ⟨withoutRoot h, h.numItems - 1⟩ := ⟨_, rfl⟩
  have hextract := extractMinCache_eq hpos hcap
  rw [← hh'] at hextract
  have hnum : h'.numItems = h.numItems - 1 := congrArg numItems hh'
  have horam : h'.oram = withoutRoot h := congrArg oram hh'
  have hitems : h.oram 1 ::ₘ items h'.oram h'.numItems = items h.oram h.numItems := by
    rw [hnum, horam]
    exact items_withoutRoot hpos
  have hcomp' : Comparable tree h' := fun x hx y hy =>
    hcomp x (hitems ▸ Multiset.mem_cons_of_mem hx) y (hitems ▸ Multiset.mem_cons_of_mem hy)
  -- the moved entry may only be above its children
  have hbelow : OrderedBelow (treeValue tree) h'.oram (h'.numItems + 1) 1 := by
    refine ⟨fun j hj hlt hhalf => ?_, fun j _ _ hge => absurd hge (by omega)⟩
    rw [horam, withoutRoot_of_lt hj (by omega), withoutRoot_of_lt (by omega) (by omega)]
    exact hord j hj (by omega)
  have hordered : CacheOrdered tree (h'.heapifyCache tree) ↔ PassesSuffice tree h := by
    rw [← settled_withoutRoot_iff, ← horam, ← hnum, ← climbLeaves_ordered_iff hbelow,
      ← heapifyCache_eq hcomp']
    rfl
  constructor
  · rintro ⟨h'', heq, -, hord''⟩
    rw [hextract, Option.some.injEq, Prod.mk.injEq] at heq
    obtain ⟨-, rfl⟩ := heq
    exact hordered.mp hord''
  · intro hsuffice
    refine ⟨h', hextract, ?_, hordered.mpr hsuffice⟩
    rw [heapifyCache_eq hcomp']
    exact (congrArg _ (items_climbLeaves h'.oram h'.numItems)).trans hitems

/-- A cache of four entries, over a tree of seven items. -/
theorem extractMinCache_heapifyCache_four :
    RemovesRoot (initN 7 : MinHeap 8) ⟨BitVec.ofNat 64, 4⟩ ↔
      PassesSuffice (initN 7 : MinHeap 8) ⟨BitVec.ofNat 64, 4⟩ := by
  have hinv : (initN 7 : MinHeap 8).Inv := initN_inv (by decide) (by decide)
  have hord : ∀ i < 5, 2 ≤ i → ((initN 7 : MinHeap 8).oram ((BitVec.ofNat 64 (i / 2)).toNat % 8)).toInt ≤
      ((initN 7 : MinHeap 8).oram ((BitVec.ofNat 64 i).toNat % 8)).toInt := by decide
  apply extractMinCache_heapifyCache_iff (by decide) (by decide) (@Comparable.of_le _ _ hinv.le 3 rfl _)
  intro i hge hi
  rw [@treeValue_eq _ _ 3 rfl, @treeValue_eq _ _ 3 rfl]
  exact hord i hi hge

/-- A tree of nine items. -/
def nineItems : MinHeap 16 := ⟨fun i => [maxint, 3, 10, 18, 16, 33, 22, 39, 38, 25].getD i maxint, 9⟩

/-- The cache after the extraction of the four least items of `nineItems`. -/
def fiveEntries : MinHeap 16 := ⟨fun i => [maxint, 6, 9, 8, 5, 7].getD i maxint, 5⟩

/-- The next extraction leaves the entry 8, of value 38, above the entry 5, of value 33. -/
theorem extractMinCache_heapifyCache_five : Comparable nineItems fiveEntries ∧
    CacheOrdered nineItems fiveEntries ∧ ¬ RemovesRoot nineItems fiveEntries := by
  have hle : ∀ i, nineItems.oram i ≤ maxint := by
    intro i
    rcases Nat.lt_or_ge i 10 with hlt | hge
    · have hcells : ∀ i < 10, nineItems.oram i ≤ maxint := by decide
      exact hcells i hlt
    · have hunused : nineItems.oram i = maxint := List.getD_eq_default _ _ hge
      rw [hunused]
      exact BitVec.le_refl maxint
  have hord : ∀ i < 6, 2 ≤ i → (nineItems.oram ((fiveEntries.oram (i / 2)).toNat % 16)).toInt ≤
      (nineItems.oram ((fiveEntries.oram i).toNat % 16)).toInt := by decide
  refine ⟨@Comparable.of_le _ _ hle 4 rfl _, ?_, ?_⟩
  · intro i hge hi
    rw [@treeValue_eq _ _ 4 rfl, @treeValue_eq _ _ 4 rfl]
    exact hord i hi hge
  · rintro ⟨h', heq, -, hordered⟩
    rw [extractMinCache_eq (by decide) (by decide), Option.some.injEq, Prod.mk.injEq] at heq
    obtain ⟨-, rfl⟩ := heq
    have hcell := hordered 4 (by decide) (by decide)
    rw [@treeValue_eq _ _ 4 rfl, @treeValue_eq _ _ 4 rfl] at hcell
    revert hcell
    decide +kernel

end MinHeap

end Prac
