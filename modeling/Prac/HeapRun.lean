import Prac.HeapExtract
import Mathlib.Data.List.ReduceOption

/-!
# The heap is a priority queue

* `PriorityQueue.Step`, `PriorityQueue.Run` — what the operations do to the multiset of values, as a
  specification: an insertion adds a value, an extraction removes a least one.
* `MinHeap.step_refines` — every legal operation keeps the heap's invariant and is a step of the
  priority queue on its items.
* `heap_run_correct` — so is every legal sequence of operations from `init`.
* `heap_optimized_agrees` — the optimized operations and the basic ones do the same.

The memory has `2 ^ m` cells, with `m` up to 64; the `int` shifts of the source are the numbers here up to
`m = 31`.
-/

namespace Prac

open BinaryHeap

namespace PriorityQueue

/-- One operation on the multiset of stored values, and what it returns. -/
inductive Step : Multiset Value → MinHeap.Op → Multiset Value → Option Value → Prop where
  | insert (s : Multiset Value) (val : Value) : Step s (.insert val) (val ::ₘ s) none
  | insertOptimized (s : Multiset Value) (val : Value) :
      Step s (.insertOptimized val) (val ::ₘ s) none
  | extractMin (s : Multiset Value) (minval : Value) (isOptimized : Bool)
      (least : ∀ x ∈ s, minval.toNat ≤ x.toNat) :
      Step (minval ::ₘ s) (.extractMin isOptimized) s (some minval)

/-- A sequence of operations, and what they return. -/
inductive Run : Multiset Value → List MinHeap.Op → Multiset Value → List (Option Value) → Prop where
  | nil (s : Multiset Value) : Run s [] s []
  | cons {s s' s'' : Multiset Value} {op : MinHeap.Op} {ops : List MinHeap.Op} {out : Option Value}
      {outs : List (Option Value)} (head : Step s op s' out) (tail : Run s' ops s'' outs) :
      Run s (op :: ops) s'' (out :: outs)

/-- The values that a sequence of operations inserts. -/
def inserted : List MinHeap.Op → Multiset Value
  | [] => 0
  | .insert val :: ops => val ::ₘ inserted ops
  | .insertOptimized val :: ops => val ::ₘ inserted ops
  | .extractMin _ :: ops => inserted ops

/-- What is stored in the end and what was extracted make up what was stored at first and what was
inserted. -/
theorem Run.balance {s s' : Multiset Value} {ops : List MinHeap.Op} {outs : List (Option Value)}
    (h : Run s ops s' outs) : s' + (outs.reduceOption : Multiset Value) = s + inserted ops := by
  induction h with
  | nil s => rfl
  | cons head _ ih =>
      cases head with
      | insert s val =>
          rw [List.reduceOption_cons_of_none, ih, inserted, Multiset.cons_add, Multiset.add_cons]
      | insertOptimized s val =>
          rw [List.reduceOption_cons_of_none, ih, inserted, Multiset.cons_add, Multiset.add_cons]
      | extractMin s minval isOptimized least =>
          rw [List.reduceOption_cons_of_some, ← Multiset.cons_coe, Multiset.add_cons, ih, inserted,
            Multiset.cons_add]

end PriorityQueue

namespace MinHeap

variable {oramSize : Nat}

/-- Sequences that do not overfill a heap of `n` items, do not extract from an empty one, and insert
values that a signed comparison can order. -/
def Legal (oramSize : Nat) : Nat → List Op → Prop
  | _, [] => True
  | n, .insert val :: ops => (val ≤ maxint ∧ n + 1 < oramSize) ∧ Legal oramSize (n + 1) ops
  | n, .insertOptimized val :: ops => (val ≤ maxint ∧ n + 1 < oramSize) ∧ Legal oramSize (n + 1) ops
  | n, .extractMin _ :: ops => 1 ≤ n ∧ Legal oramSize (n - 1) ops

/-- A legal operation keeps the invariant and is a step of the priority queue. -/
theorem step_refines {h : MinHeap oramSize} (hinv : h.Inv) {m : Nat} (hm : oramSize = 2 ^ m)
    (hsize : oramSize ≤ 2 ^ 64) {op : Op} {ops : List Op}
    (hlegal : Legal oramSize h.numItems (op :: ops)) :
    ∃ h' out, h.step op = some (h', out) ∧ h'.Inv ∧ Legal oramSize h'.numItems ops ∧
      PriorityQueue.Step (items h.oram h.numItems) op (items h'.oram h'.numItems) out := by
  cases op with
  | insert val =>
      obtain ⟨⟨hval, hcap⟩, hrest⟩ := hlegal
      obtain ⟨h', heq, hinv', hnum, hitems⟩ := insert_spec hinv hval hcap
      refine ⟨h', none, ?_, hinv', hnum ▸ hrest, hitems ▸ .insert _ val⟩
      rw [step, heq, Option.map_some]
  | insertOptimized val =>
      obtain ⟨⟨hval, hcap⟩, hrest⟩ := hlegal
      obtain ⟨h', heq, hinv', hnum, hitems⟩ := insert_spec hinv hval hcap
      refine ⟨h', none, ?_, hinv', hnum ▸ hrest, hitems ▸ .insertOptimized _ val⟩
      rw [step, insertOptimized_eq_insert hinv hsize hval hcap, heq, Option.map_some]
  | extractMin isOptimized =>
      obtain ⟨hpos, hrest⟩ := hlegal
      obtain ⟨minval, h', heq, hinv', hnum, hitems, hleast⟩ :=
        extractMin_spec hinv hpos hm hsize isOptimized
      refine ⟨h', some minval, ?_, hinv', hnum ▸ hrest, ?_⟩
      · rw [step, heq, Option.map_some]
      · rw [← hitems]
        apply PriorityQueue.Step.extractMin
        intro x hx
        exact hleast x (hitems ▸ Multiset.mem_cons_of_mem hx)

/-- A legal sequence of operations keeps the invariant and is a run of the priority queue. -/
theorem run_refines {m : Nat} (hm : oramSize = 2 ^ m) (hsize : oramSize ≤ 2 ^ 64) {ops : List Op}
    {h : MinHeap oramSize} (hinv : h.Inv) (hlegal : Legal oramSize h.numItems ops) :
    ∃ h' outs, h.run ops = some (h', outs) ∧ h'.Inv ∧
      PriorityQueue.Run (items h.oram h.numItems) ops (items h'.oram h'.numItems) outs := by
  induction ops generalizing h with
  | nil => exact ⟨h, [], rfl, hinv, .nil _⟩
  | cons op ops ih =>
      obtain ⟨h1, out, hstep, hinv1, hlegal1, hpq⟩ := step_refines hinv hm hsize hlegal
      obtain ⟨h2, outs, hrun, hinv2, htail⟩ := ih hinv1 hlegal1
      refine ⟨h2, out :: outs, ?_, hinv2, .cons hpq htail⟩
      simp only [run, hstep, hrun, Option.bind_eq_bind, Option.bind_some]
      rfl

end MinHeap

/-- **The heap over whole runs.**  Every sequence of insertions and extractions of both kinds from
`init`, on an ORAM whose size is a power of two, that neither overfills the heap nor extracts from an
empty one, succeeds.  It leaves heap order on the items and `maxint` in the other entries, it is a run
of the priority queue on the multiset of items, so that every extraction returned a least one, and
the items are those inserted less those extracted. -/
theorem heap_run_correct {m : Nat} (hm : m ≤ 64) {ops : List MinHeap.Op}
    (hlegal : MinHeap.Legal (2 ^ m) 0 ops) :
    ∃ h outs, (MinHeap.init : MinHeap (2 ^ m)).run ops = some (h, outs) ∧
      (∀ i, 2 ≤ i → i ≤ h.numItems → (h.oram (i / 2)).toNat ≤ (h.oram i).toNat) ∧
      (∀ i < 2 ^ m, i = 0 ∨ h.numItems < i → h.oram i = maxint) ∧
      PriorityQueue.Run 0 ops (items h.oram h.numItems) outs ∧
      items h.oram h.numItems + (outs.reduceOption : Multiset Value) =
        PriorityQueue.inserted ops := by
  obtain ⟨h, outs, hrun, hinv, hpq⟩ := MinHeap.run_refines rfl
    (Nat.pow_le_pow_right Nat.two_pos hm) (MinHeap.init_inv (Nat.two_pow_pos m)) hlegal
  refine ⟨h, outs, hrun, ?_, ?_, hpq, ?_⟩
  · intro i hge hi
    exact hinv.ordered i hge (lt_of_le_of_lt hi hinv.capacity)
  · rintro i hi (rfl | hlt)
    · exact hinv.zero
    · exact hinv.unused hlt hi
  · rw [hpq.balance]
    exact Multiset.zero_add _

/-- Both insertions and both extractions, on 8 cells. -/
theorem heap_run_mixed : ∃ (h : MinHeap (2 ^ 3)) (outs : List (Option Value)),
    (MinHeap.init : MinHeap (2 ^ 3)).run [.insert 5, .insertOptimized 3, .insert 4, .extractMin true,
      .insertOptimized 9, .extractMin false] = some (h, outs) ∧
    items h.oram h.numItems + (outs.reduceOption : Multiset Value) = {5, 3, 4, 9} := by
  obtain ⟨h, outs, hrun, -, -, -, hbalance⟩ := @heap_run_correct 3 (by decide)
    [.insert 5, .insertOptimized 3, .insert 4, .extractMin true, .insertOptimized 9,
      .extractMin false]
    (by simp only [MinHeap.Legal]; decide)
  exact ⟨h, outs, hrun, hbalance⟩

/-- A valid heap: heap order on the items, words that a signed comparison can order, and `maxint` in
the unused entries. -/
structure MinHeap.Valid {oramSize : Nat} (h : MinHeap oramSize) : Prop where
  capacity : h.numItems < oramSize
  ordered : ∀ i, 2 ≤ i → i ≤ h.numItems → (h.oram (i / 2)).toNat ≤ (h.oram i).toNat
  le : ∀ i, h.oram i ≤ maxint
  unused : ∀ i, i = 0 ∨ h.numItems < i → h.oram i = maxint

theorem MinHeap.Valid.inv {oramSize : Nat} {h : MinHeap oramSize} (hvalid : h.Valid) : h.Inv := by
  refine ⟨hvalid.capacity, ?_, ⟨fun i => BitVec.le_def.mp (hvalid.le i), ?_⟩,
    hvalid.unused 0 (Or.inl rfl)⟩
  · intro i hge _
    rcases Nat.lt_or_ge h.numItems i with hlt | hle
    · rw [hvalid.unused i (Or.inr hlt)]
      exact BitVec.le_def.mp (hvalid.le _)
    · exact hvalid.ordered i hge hle
  · intro j hlt _
    rw [hvalid.unused j (Or.inr hlt)]

/-- **The optimized operations agree with the basic ones.**  On a valid heap in a memory with a power of
two of cells, both insertions of a value leave the same memory, and both extractions return the same
value and leave the same memory. -/
theorem heap_optimized_agrees {m : Nat} (hm : m ≤ 64) {h : MinHeap (2 ^ m)} (hvalid : h.Valid) :
    (h.numItems + 1 < 2 ^ m → ∀ val ≤ maxint,
      ∃ h', h.insert val = some h' ∧ h.insertOptimized val = some h') ∧
    (1 ≤ h.numItems → ∃ minval h',
      h.extractMin 0 = some (minval, h') ∧ h.extractMin 1 = some (minval, h')) := by
  have hinv := hvalid.inv
  have hsize : 2 ^ m ≤ 2 ^ 64 := Nat.pow_le_pow_right Nat.two_pos hm
  constructor
  · intro hcap val hval
    obtain ⟨h', heq, -⟩ := MinHeap.insert_spec hinv hval hcap
    exact ⟨h', heq, by rw [MinHeap.insertOptimized_eq_insert hinv hsize hval hcap, heq]⟩
  · intro hpos
    exact ⟨_, _, MinHeap.extractMin_eq hinv hpos rfl hsize false,
      MinHeap.extractMin_eq hinv hpos rfl hsize true⟩

/-- A heap of five items in 8 cells, where an extraction moves the last one down past 5. -/
theorem heap_optimized_agrees_five :
    let h : MinHeap (2 ^ 3) := ⟨fun i => [maxint, 3, 10, 5, 20, 15].getD i maxint, 5⟩
    (∀ val ≤ maxint, ∃ h', h.insert val = some h' ∧ h.insertOptimized val = some h') ∧
    ∃ minval h', h.extractMin 0 = some (minval, h') ∧ h.extractMin 1 = some (minval, h') ∧
      minval = 3 ∧ (List.range' 1 5).map h'.oram = [5, 10, 15, 20, maxint] := by
  intro h
  have hordered : ∀ i < 6, 2 ≤ i → (h.oram (i / 2)).toNat ≤ (h.oram i).toNat := by decide
  have hrange : ∀ i < 6, h.oram i ≤ maxint := by decide
  have hrest : ∀ i, 6 ≤ i → h.oram i = maxint := fun i hi => List.getD_eq_default _ _ hi
  have hvalid : h.Valid := by
    refine ⟨by decide, fun i hge hle => hordered i (Nat.lt_succ_of_le hle) hge, fun i => ?_, ?_⟩
    · rcases Nat.lt_or_ge i 6 with hlt | hge
      · exact hrange i hlt
      · exact BitVec.le_of_eq (hrest i hge)
    · rintro i (rfl | hlt)
      · rfl
      · exact hrest i hlt
  have hmin : ((h.extractMin 0).map fun out => (out.1, (List.range' 1 5).map out.2.oram)) =
      some (3, [5, 10, 15, 20, maxint]) := by decide +kernel
  obtain ⟨hinsert, hextract⟩ := heap_optimized_agrees (by decide) hvalid
  obtain ⟨minval, h', hbasic, hoptimized⟩ := hextract (by decide)
  rw [hbasic] at hmin
  obtain ⟨rfl, hwords⟩ := Prod.mk.inj (Option.some.inj hmin)
  exact ⟨hinsert (by decide), _, h', hbasic, hoptimized, rfl, hwords⟩

end Prac
