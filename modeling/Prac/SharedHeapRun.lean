import Prac.SharedHeap
import Prac.HeapRun

/-!
# The heap of the three parties is a priority queue

* `Shared.HeapOp`, `Shared.MinHeap.step` — the operations, with what the parties draw for each.
* `Shared.MinHeap.simulates` — every operation that the heap in the clear can do is done by the three
  parties on shares.
* `Shared.heap_correct` — whole runs from a new heap, against `PriorityQueue.Run`.
-/

namespace Prac

open Loop Simulation BinaryHeap
open MinHeap (flat)

namespace Shared

variable {oramSize : Nat}

/-- One operation on the heap, with what the parties draw for it.  The optimized extraction is not among them:
it updates additive shares with keys of WIDTH 3, for which `RDPF::scaled_as` leaves its leaf. -/
inductive HeapOp where
  | insert (val : Player → RegAS) (coins : MinHeap.InsertCoins)
  | insertOptimized (val : Player → RegAS) (coins : MinHeap.OptimizedCoins)
  | extractMin (coins : MinHeap.ExtractCoins)

/-- The operation in the clear. -/
def HeapOp.op : HeapOp → Prac.MinHeap.Op
  | insert val _ => .insert (reveal val)
  | insertOptimized val _ => .insertOptimized (reveal val)
  | extractMin _ => .extractMin false

namespace MinHeap

/-- One operation, with the shares that an extraction returns. -/
def step (tio : MPCTIO 1) (h : MinHeap oramSize) :
    HeapOp → Option (MinHeap oramSize × Option (Player → RegAS))
  | .insert val coins => (h.insert tio val coins).map fun h => (h, none)
  | .insertOptimized val coins => (h.insertOptimized tio val coins).map fun h => (h, none)
  | .extractMin coins => (h.extractMin tio coins).map fun (minval, h) => (h, some minval)

/-- The three parties do what the heap in the clear does. -/
theorem simulates (tio : MPCTIO 1) (hsize : oramSize ≤ 2 ^ RDPF.maxKeyDepth) :
    Simulates Represents HeapOp.op (Option.map reveal) (ofStep fun (h : MinHeap oramSize) => step tio h)
      (ofStep Prac.MinHeap.step) := by
  rintro h ideal op ideal' out hrep hstep
  cases op with
  | insert val coins =>
      obtain ⟨h1, hrun, heq⟩ := Option.map_eq_some_iff.mp hstep
      cases heq
      obtain ⟨h', hshares, hrep'⟩ := insert_represents tio hrep val coins hrun
      exact ⟨h', none, by rw [ofStep, step, hshares, Option.map_some], hrep', rfl⟩
  | insertOptimized val coins =>
      obtain ⟨h1, hrun, heq⟩ := Option.map_eq_some_iff.mp hstep
      cases heq
      obtain ⟨h', hshares, hrep'⟩ := insertOptimized_represents tio hsize hrep val coins hrun
      exact ⟨h', none, by rw [ofStep, step, hshares, Option.map_some], hrep', rfl⟩
  | extractMin coins =>
      obtain ⟨⟨minval, h1⟩, hrun, heq⟩ := Option.map_eq_some_iff.mp hstep
      cases heq
      obtain ⟨shares, h', hshares, hrep', rfl⟩ := extractMin_represents tio hsize hrep coins hrun
      exact ⟨h', some shares, by rw [ofStep, step, hshares, Option.map_some], hrep', rfl⟩

/-- The words behind a new heap. -/
theorem init_words (addr : Nat) :
    (init : MinHeap oramSize).oram.words addr = if addr < oramSize then maxint else 0 := by
  have hloop : ∀ n addr, (forRange 0 n (fun i entries => (flat oramSize).store entries i (⟨maxint⟩ : RegAS))
      (Duoram.create : Duoram RegAS).reconstruct addr).ashare = if addr < n then maxint else 0 := by
    intro n
    induction n with
    | zero => exact fun _ => rfl
    | succ n ih =>
        intro addr
        rw [forRange_succ (Nat.zero_le n), Shape.PadFree.store_eq flat_padFree, Shape.whole_cell]
        rcases eq_or_ne n addr with rfl | hne
        · rw [if_pos rfl, if_pos (Nat.lt_succ_self n)]
        · rw [if_neg fun heq => hne (Cell.mem.inj heq), ih]
          exact if_congr (by omega) rfl rfl
  have hwords := congrArg RegAS.ashare
    (Shape.PadFree.init_reconstruct (A := flat oramSize) flat_padFree (fun _ => (⟨maxint⟩ : RegAS))
      Duoram.create addr)
  rw [hloop, Shape.whole_size] at hwords
  exact hwords

/-- A new heap stands for a valid one. -/
theorem init_represents (hpos : 0 < oramSize) :
    ∃ ideal : Prac.MinHeap oramSize, Represents init ideal ∧ ideal.Inv ∧ ideal.numItems = 0 := by
  have hle addr : ((init : MinHeap oramSize).oram.words addr).toNat ≤ maxint.toNat := by
    rw [init_words]
    split
    · exact le_rfl
    · exact Nat.zero_le _
  have hin {addr : Nat} (h : addr < oramSize) : (init : MinHeap oramSize).oram.words addr = maxint := by
    rw [init_words, if_pos h]
  refine ⟨⟨(init : MinHeap oramSize).oram.words, 0⟩, ⟨⟨fun addr haddr => ?_, rfl⟩, rfl⟩,
    ⟨hpos, fun i _ hi => ?_, ⟨hle, fun i _ hi => congrArg BitVec.toNat (hin hi)⟩, hin hpos⟩, rfl⟩
  · exact Shape.init_consistentAt _ _ (Duoram.create_consistent addr haddr)
  · rw [← hin hi] at hle
    exact hle _

end MinHeap

/-- A run of the heap in the clear, as a run of its machine. -/
theorem ideal_run {h h' : Prac.MinHeap oramSize} {ops : List Prac.MinHeap.Op} {outs : List (Option Value)}
    (hrun : h.run ops = some (h', outs)) : (ofStep Prac.MinHeap.step).Run h ops h' outs := by
  induction ops generalizing h outs with
  | nil =>
      cases hrun
      exact .nil _
  | cons op ops ih =>
      simp only [Prac.MinHeap.run, Option.bind_eq_bind, Option.bind_eq_some_iff] at hrun
      obtain ⟨⟨h1, out⟩, hstep, ⟨h2, outs'⟩, hrest, heq⟩ := hrun
      cases heq
      exact .cons hstep (ih hrest)

/-- **The heap on shares.**  Every sequence of insertions of both kinds and of basic extractions on a new heap
that neither overfills it nor extracts from an empty one succeeds, however the values are shared and
whatever the parties draw.  The words behind its memory are in heap order, and the opened outputs and the
items that are left are those of a priority queue. -/
theorem heap_correct {m : Nat} (hm : m ≤ RDPF.maxKeyDepth) (tio : MPCTIO 1) (ops : List HeapOp)
    (hlegal : Prac.MinHeap.Legal (2 ^ m) 0 (ops.map HeapOp.op)) :
    ∃ (h : Shared.MinHeap (2 ^ m)) (outs : List (Option (Player → RegAS))),
      run (MinHeap.step tio) MinHeap.init ops = some (h, outs) ∧ h.oram.Consistent (2 ^ m) ∧
      (∀ i, 2 ≤ i → i ≤ h.numItems → (h.oram.words (i / 2)).toNat ≤ (h.oram.words i).toNat) ∧
      PriorityQueue.Run 0 (ops.map HeapOp.op) (items h.oram.words h.numItems) (outs.map (Option.map reveal)) := by
  have hsize : 2 ^ m ≤ 2 ^ RDPF.maxKeyDepth := Nat.pow_le_pow_right Nat.two_pos hm
  obtain ⟨ideal, hrep, hinv, hzero⟩ := MinHeap.init_represents (Nat.two_pow_pos m)
  rw [← hzero] at hlegal
  obtain ⟨ideal', outs', hrun, hinv', hpq⟩ := Prac.MinHeap.run_refines rfl
    (hsize.trans (Nat.pow_le_pow_right Nat.two_pos (by decide))) hinv hlegal
  obtain ⟨h, outs, hshares, hrep', houts⟩ := (MinHeap.simulates tio hsize).run hrep (ideal_run hrun)
  rw [hzero, items_zero] at hpq
  refine ⟨h, outs, run_iff.mpr hshares, hrep'.oram.consistent, ?_, ?_⟩
  · intro i hge hi
    rw [hrep'.oram.words]
    rw [hrep'.numItems] at hi
    exact hinv'.ordered i hge (lt_of_le_of_lt hi hinv'.capacity)
  · rw [hrep'.oram.words, hrep'.numItems, houts]
    exact hpq

/-- Two insertions and an extraction, in four cells. -/
theorem heap_correct_four :
    let tio : MPCTIO 1 := ⟨⟨fun _ _ => 0, fun _ _ => 0⟩, fun _ => 1, 1⟩
    let keys : TripleCoins 1 := ⟨fun _ => 5, fun _ _ => 3, default, fun _ => halftriple (fun _ => 7) 9⟩
    let cdpf : CdpfCoins := ⟨fun _ => 1, 2, 3, 4⟩
    let mult : MultTriple := multtriple (fun _ => 7) (fun _ => 8) 9
    let access : AccessCoins RegAS := ⟨keys, fun _ _ => 0, ⟨6⟩⟩
    let offsets : MinHeap.OffsetCoins := ⟨cdpf, mult, cdpf, ⟨fun _ => true, fun p => p.bit, fun p => !p.bit, rfl⟩, mult, mult⟩
    let split (v r : Value) (p : Player) : RegAS := if p.bit then ⟨r⟩ else ⟨v - r⟩
    let insert : MinHeap.InsertCoins := ⟨fun _ => 0, fun _ => ⟨cdpf, mult, fun _ => 0, fun _ => ⟨5⟩⟩⟩
    ∃ (h : Shared.MinHeap (2 ^ 2)) (outs : List (Option (Player → RegAS))),
      run (MinHeap.step tio) MinHeap.init [.insert (split 5 1) insert,
        .insertOptimized (split 3 2) ⟨⟨keys, fun _ => cdpf, fun _ _ => 0, fun _ => ⟨6⟩⟩, fun _ => 0, keys,
          fun _ => mult, fun _ => mult, fun _ _ => 0⟩,
        .extractMin ⟨fun _ => 0, fun _ => ⟨1⟩, ⟨offsets, fun _ _ => 0⟩,
          fun _ => ⟨fun _ => access, offsets, valselecttriple (fun _ => true) (fun _ => 4) 5, fun _ => 6,
            fun _ => access⟩⟩] = some (h, outs) ∧
      PriorityQueue.Run 0 [.insert 5, .insertOptimized 3, .extractMin false]
        (items h.oram.words h.numItems) (outs.map (Option.map reveal)) := by
  intro tio keys cdpf mult access offsets split insert
  have hsplit v r : reveal (split v r) = v := sub_add_cancel v r
  obtain ⟨h, outs, hrun, -, -, hpq⟩ := heap_correct (show 2 ≤ RDPF.maxKeyDepth by decide) tio
    [.insert (split 5 1) insert,
      .insertOptimized (split 3 2) ⟨⟨keys, fun _ => cdpf, fun _ _ => 0, fun _ => ⟨6⟩⟩, fun _ => 0, keys,
        fun _ => mult, fun _ => mult, fun _ _ => 0⟩,
      .extractMin ⟨fun _ => 0, fun _ => ⟨1⟩, ⟨offsets, fun _ _ => 0⟩,
        fun _ => ⟨fun _ => access, offsets, valselecttriple (fun _ => true) (fun _ => 4) 5, fun _ => 6,
          fun _ => access⟩⟩]
    (by
      simp only [List.map_cons, List.map_nil, HeapOp.op, hsplit, Prac.MinHeap.Legal]
      decide)
  simp only [List.map_cons, List.map_nil, HeapOp.op, hsplit] at hpq
  exact ⟨h, outs, hrun, hpq⟩

end Shared

end Prac
