import Prac.Heap

/-!
# Heap insertion is correct

* `MinHeap.Inv` — the invariant: heap order, `maxint` in the unused entries, words that a signed
  comparison can order.
* `MinHeap.insert_placed`, `MinHeap.insertOptimized_placed` — both insertions place the value on the
  path to the new leaf, so they build the same array (`MinHeap.insertOptimized_eq_insert`).
* `MinHeap.insert_spec` — insertion keeps the invariant and adds the value to the items.
-/

namespace Prac

open Loop BinaryHeap

namespace MinHeap

variable {oramSize : Nat}

/-! ## The whole memory as a shape -/

@[simp] theorem flat_size : (flat oramSize).size = oramSize := Shape.whole_size oramSize

@[simp] theorem flat_get (mem : Words) (i : Nat) : (flat oramSize).get mem i = mem i :=
  Shape.whole_get mem i

@[simp] theorem flat_set (mem : Words) (i : Nat) (v : Value) :
    (flat oramSize).set mem i v = Function.update mem i v :=
  Shape.whole_set mem i v

/-- The invariant of the heap. -/
structure Inv (h : MinHeap oramSize) : Prop where
  capacity : h.numItems < oramSize
  ordered : Ordered BitVec.toNat h.oram oramSize
  padded : Padded BitVec.toNat h.oram h.numItems oramSize maxint.toNat
  zero : h.oram 0 = maxint

theorem Inv.le {h : MinHeap oramSize} (hinv : h.Inv) (i : Nat) : h.oram i ≤ maxint :=
  BitVec.le_def.mpr (hinv.padded.le i)

theorem Inv.unused {h : MinHeap oramSize} (hinv : h.Inv) {i : Nat} (hlt : h.numItems < i)
    (hi : i < oramSize) : h.oram i = maxint := BitVec.toNat_inj.mp (hinv.padded.top i hlt hi)

theorem init_inv (h : 0 < oramSize) : (init : MinHeap oramSize).Inv :=
  ⟨h, fun _ _ _ => le_rfl, ⟨fun _ => le_rfl, fun _ _ _ => rfl⟩, rfl⟩

/-- Wherever the value is placed on the path to the next leaf, the invariant holds again. -/
theorem Inv.placed {h : MinHeap oramSize} (hinv : h.Inv) {val : Value} (hval : val ≤ maxint)
    (hcap : h.numItems + 1 < oramSize) {mem : Words}
    (hmem : Placed BitVec.toNat h.oram val.toNat (h.numItems + 1) mem) :
    (⟨mem, h.numItems + 1⟩ : MinHeap oramSize).Inv := by
  have hval := BitVec.le_def.mp hval
  refine ⟨hcap, hmem.ordered hinv.ordered, ⟨?_, ?_⟩, ?_⟩
  · intro i
    by_cases hi : Ancestor i (h.numItems + 1)
    · rcases Nat.lt_or_ge i 2 with hlt | hge
      · have : i = 1 := by
          have := hi.1
          omega
        rw [this, hmem.root]
        exact (min_le_left _ _).trans hval
      · rw [hmem.path i hge hi]
        exact max_le (hinv.padded.le _) ((min_le_left _ _).trans hval)
    · have hle := hinv.padded.le i
      rwa [← hmem.off i hi] at hle
  · intro j hlt hj
    have htop := hinv.padded.top j (Nat.lt_of_succ_lt hlt) hj
    rwa [← hmem.off j (fun hanc => absurd hanc.le (not_le.mpr hlt))] at htop
  · exact (hmem.off 0 (fun hanc => absurd hanc.1 (by omega))).trans hinv.zero

/-! ## Insertion by bubbling up -/

/-- The outputs of `oswap`, written back to their cells. -/
theorem update_oswap (mem : Words) (c p : Nat) (f : Bool) :
    Function.update (Function.update mem c (oswap (mem c) (mem p) f).1) p
      (oswap (mem c) (mem p) f).2 = if f then exchange mem c p else mem := by
  cases f with
  | false => simp [oswap]
  | true =>
      funext i
      simp only [oswap, if_true]
      rcases eq_or_ne i p with rfl | hp
      · rw [Function.update_self, exchange_right]
      · rw [Function.update_of_ne hp]
        rcases eq_or_ne i c with rfl | hc
        · rw [Function.update_self, exchange_left]
        · rw [Function.update_of_ne hc, exchange_of_ne mem hc hp]

/-- The loop body exchanges the child and the parent if they are out of order. -/
theorem bubble_eq {mem : Words} (hle : ∀ i, mem i ≤ maxint) (c p : Nat) :
    bubble (flat oramSize) c p mem = compareExchange BitVec.toNat mem c p := by
  unfold bubble compareExchange
  simp only [flat_get, flat_set, signedCompare_sub (hle c) (hle p), update_oswap, decide_eq_true_eq]

theorem compareExchange_le {mem : Words} (hle : ∀ i, mem i ≤ maxint) (c p i : Nat) :
    compareExchange BitVec.toNat mem c p i ≤ maxint := by
  unfold compareExchange
  split
  · exact hle _
  · exact hle i

/-- The loop of `insert` is a climb with exchanges. -/
theorem climb_bubble {mem : Words} (hle : ∀ i, mem i ≤ maxint) (n : Nat) :
    climb (bubble (flat oramSize)) n mem =
      climb (fun c p s => compareExchange BitVec.toNat s c p) n mem := by
  apply climb_congr (fun s : Words => ∀ i, s i ≤ maxint) _ hle
  intro c s _ _ hs
  exact ⟨bubble_eq hs c (c / 2), compareExchange_le hs c (c / 2)⟩

theorem update_le {mem : Words} (hle : ∀ i, mem i ≤ maxint) {val : Value} (hval : val ≤ maxint)
    (n i : Nat) : Function.update mem n val i ≤ maxint := by
  rcases eq_or_ne i n with rfl | hne
  · rw [Function.update_self]
    exact hval
  · rw [Function.update_of_ne hne]
    exact hle i

theorem insert_placed {h : MinHeap oramSize} (hinv : h.Inv) {val : Value} (hval : val ≤ maxint)
    (hcap : h.numItems + 1 < oramSize) :
    ∃ mem, h.insert val = some ⟨mem, h.numItems + 1⟩ ∧
      Placed BitVec.toNat h.oram val.toNat (h.numItems + 1) mem ∧
      items mem (h.numItems + 1) = val ::ₘ items h.oram h.numItems := by
  have hfree : val.toNat ≤ (h.oram (h.numItems + 1)).toNat := by
    rw [hinv.unused (Nat.lt_succ_self _) hcap]
    exact BitVec.le_def.mp hval
  refine ⟨_, if_pos hcap, ?_, ?_⟩
  · rw [flat_set, climb_bubble (update_le hinv.le hval _)]
    exact climb_placed hinv.ordered (Nat.le_add_left 1 _) hcap val hfree
  · rw [flat_set, climb_bubble (update_le hinv.le hval _),
      items_climb _ (Nat.le_add_left 1 _) le_rfl, items_succ, Function.update_self,
      items_update_of_lt _ (Nat.lt_succ_self _)]

/-- **Insertion.**  The invariant is kept, and the value is added to the items. -/
theorem insert_spec {h : MinHeap oramSize} (hinv : h.Inv) {val : Value} (hval : val ≤ maxint)
    (hcap : h.numItems + 1 < oramSize) :
    ∃ h', h.insert val = some h' ∧ h'.Inv ∧ h'.numItems = h.numItems + 1 ∧
      items h'.oram h'.numItems = val ::ₘ items h.oram h.numItems := by
  obtain ⟨mem, heq, hplaced, hitems⟩ := insert_placed hinv hval hcap
  exact ⟨_, heq, hinv.placed hval hcap hplaced, rfl, hitems⟩

/-! ## Insertion by binary search on the path -/

theorem pathNumNodes_eq {n : Nat} (hn : 1 ≤ n) : pathNumNodes n = Nat.log2 n + 1 := by
  induction n using Nat.strong_induction_on with
  | _ n ih =>
      unfold pathNumNodes
      rw [Nat.log2_def]
      split
      · rename_i hgt
        rw [if_pos (Nat.succ_le_of_lt hgt), Nat.shiftRight_one, ih (n / 2) (by omega) (by omega)]
      · rename_i hle
        rw [if_neg (by omega)]

theorem path_size {n : Nat} (hn : 1 ≤ n) :
    (Shape.path (flat oramSize) n).size = Nat.log2 n + 1 := pathNumNodes_eq hn

theorem path_cell {n j : Nat} (hn : 1 ≤ n) :
    (Shape.path (flat oramSize) n).cell j = .mem (pathNode n j) := by
  have hshift : Nat.log2 n + 1 - j - 1 = Nat.log2 n - j := by omega
  rw [Shape.cell, Shape.whole_cell, pathNumNodes_eq hn, hshift, Nat.shiftRight_eq_div_pow]
  rfl

theorem path_get {n j : Nat} (hn : 1 ≤ n) (mem : Words) :
    (Shape.path (flat oramSize) n).get mem j = mem (pathNode n j) := by
  unfold Shape.get
  rw [path_cell hn]

theorem path_set {n j : Nat} (hn : 1 ≤ n) (mem : Words) (v : Value) :
    (Shape.path (flat oramSize) n).set mem j v = Function.update mem (pathNode n j) v := by
  unfold Shape.set
  rw [path_cell hn]

/-- The running XOR of a unit vector is 1 from its index on. -/
theorem runningXor_eq {flag : Nat → Bool} {r : Nat} (h : ∀ j, flag j = decide (j = r)) (j : Nat) :
    runningXor flag j = decide (r ≤ j) := by
  induction j with
  | zero =>
      rw [runningXor, h, decide_eq_decide]
      omega
  | succ j ih =>
      rw [runningXor, h, ih, Bool.eq_iff_iff]
      simp only [Bool.xor_iff_ne, ne_eq, decide_eq_true_eq, decide_eq_decide]
      omega

/-- The update loop adds its offset to every node of the path. -/
theorem shift_loop {n : Nat} (hn : 1 ≤ n) (offset : Nat → Value) (mem : Words) :
    let s := forRange 0 (Nat.log2 n + 1) (fun j mem => (Shape.path (flat oramSize) n).set mem j
      ((Shape.path (flat oramSize) n).get mem j + offset j)) mem
    (∀ j ≤ Nat.log2 n, s (pathNode n j) = mem (pathNode n j) + offset j) ∧
      ∀ p, ¬ Ancestor p n → s p = mem p := by
  have hend := @forRange_inv _ (fun j mem => (Shape.path (flat oramSize) n).set mem j
      ((Shape.path (flat oramSize) n).get mem j + offset j)) mem _ _
    (fun i s => (∀ j ≤ Nat.log2 n, s (pathNode n j) =
        if j < i then mem (pathNode n j) + offset j else mem (pathNode n j)) ∧
      ∀ p, ¬ Ancestor p n → s p = mem p)
    (Nat.zero_le (Nat.log2 n + 1)) ⟨fun j _ => rfl, fun p _ => rfl⟩ ?_
  · refine ⟨fun j hj => ?_, hend.2⟩
    rw [hend.1 j hj, if_pos (Nat.lt_succ_of_le hj)]
  · rintro i s - hi ⟨hpath, hoff⟩
    have hi : i ≤ Nat.log2 n := Nat.le_of_lt_succ hi
    rw [path_get hn, path_set hn]
    refine ⟨?_, ?_⟩
    · intro j hj
      rcases eq_or_ne j i with rfl | hne
      · rw [Function.update_self, hpath j hj, if_neg (lt_irrefl j), if_pos (Nat.lt_succ_self j)]
      · rw [Function.update_of_ne (fun heq => hne (pathNode_inj hn hj hi heq)), hpath j hj]
        by_cases hlt : j < i
        · rw [if_pos hlt, if_pos (Nat.lt_succ_of_lt hlt)]
        · rw [if_neg hlt, if_neg (by omega)]
    · intro p hp
      rw [Function.update_of_ne, hoff p hp]
      rintro rfl
      exact hp ((ancestor_iff_pathNode hn).mpr ⟨i, hi, rfl⟩)

theorem insertOptimized_placed {h : MinHeap oramSize} (hinv : h.Inv) (hsize : oramSize ≤ 2 ^ 64)
    {val : Value} (hval : val ≤ maxint) (hcap : h.numItems + 1 < oramSize) :
    ∃ mem, h.insertOptimized val = some ⟨mem, h.numItems + 1⟩ ∧
      Placed BitVec.toNat h.oram val.toNat (h.numItems + 1) mem := by
  obtain ⟨n, hn⟩ : ∃ n, n = h.numItems + 1 := ⟨_, rfl⟩
  have hpos : 1 ≤ n := by omega
  have hlast : h.oram n = maxint := hinv.unused (by omega) (by omega)
  have hlog : Nat.log2 n < 64 := (Nat.log2_lt (by omega)).mpr (by omega)
  -- the first node that is not below the value; the new leaf still holds `maxint`
  have hexists : ∃ j, j ≤ Nat.log2 n ∧ val.toNat ≤ (h.oram (pathNode n j)).toNat := by
    refine ⟨Nat.log2 n, le_rfl, ?_⟩
    rw [pathNode_last, hlast]
    exact BitVec.le_def.mp hval
  obtain ⟨r, hr⟩ : ∃ r, r = Nat.find hexists := ⟨_, rfl⟩
  obtain ⟨hrle, hrval⟩ := hr ▸ Nat.find_spec hexists
  have hbelow : ∀ j < r, j ≤ Nat.log2 n → (h.oram (pathNode n j)).toNat < val.toNat := by
    intro j hlt hj
    have hmin := Nat.find_min hexists (hr ▸ hlt)
    by_contra hge
    exact hmin ⟨hj, not_lt.mp hge⟩
  have habove : ∀ j, r ≤ j → j ≤ Nat.log2 n → val.toNat ≤ (h.oram (pathNode n j)).toNat := by
    intro j hle hj
    exact hrval.trans (hinv.ordered.path_le hpos (by omega) hle hj)
  obtain ⟨foundidx, hsearch, hfound⟩ := @Shape.binarySearch_spec _
    (Shape.path (flat oramSize) n) h.oram val
    (by rw [path_size hpos]; omega) (fun i _ => path_get hpos h.oram ▸ hinv.le _) hval r
    (by rw [path_size hpos]; omega)
    (fun i hi => path_get hpos h.oram ▸ hbelow i hi (by omega))
    (fun i hle hi => path_get hpos h.oram ▸ habove i hle (by rw [path_size hpos] at hi; omega))
  have hflag : ∀ j, unitVector foundidx (Nat.log2 (Nat.log2 n + 1) + 1) j = decide (j = r) := by
    intro j
    unfold unitVector Index.pos
    rw [hfound, Nat.mod_eq_of_lt (lt_of_le_of_lt (by omega) Nat.lt_log2_self)]
  have hu := runningXor_eq hflag
  unfold insertOptimized
  rw [← hn, if_pos (hn ▸ hcap)]
  dsimp only
  rw [hsearch, Option.map_some]
  refine ⟨_, rfl, ?_⟩
  rw [path_size hpos]
  simp only [path_get hpos, flat_set]
  obtain ⟨hpath, hoff⟩ := @shift_loop oramSize n hpos (fun j =>
    (if j > 0 then flagmult (runningXor (unitVector foundidx (Nat.log2 (Nat.log2 n + 1) + 1)) (j - 1))
        (Function.update h.oram n 0 (pathNode n (j - 1)) - Function.update h.oram n 0 (pathNode n j))
      else 0) +
      flagmult (unitVector foundidx (Nat.log2 (Nat.log2 n + 1) + 1) j)
        (val - Function.update h.oram n 0 (pathNode n j))) (Function.update h.oram n 0)
  simp only [path_get hpos] at hpath hoff
  have hkeep : ∀ j < Nat.log2 n, Function.update h.oram n 0 (pathNode n j) = h.oram (pathNode n j) := by
    intro j hj
    apply Function.update_of_ne
    intro heq
    exact absurd (pathNode_inj hpos hj.le le_rfl (heq.trans (pathNode_last n).symm)) hj.ne
  refine placed_of_shift hinv.ordered hpos (by omega) hbelow habove ?_ ?_
  · intro j hj
    rw [hpath j hj, hflag, hu]
    unfold flagmult
    rcases lt_trichotomy j r with hlt | rfl | hgt
    · rw [if_pos hlt, decide_eq_false hlt.ne, decide_eq_false (by omega), hkeep j (by omega)]
      simp
    · rw [if_neg (lt_irrefl j), if_pos rfl, decide_eq_true rfl]
      by_cases hzero : j > 0
      · rw [if_pos hzero, decide_eq_false (by omega)]
        simp
      · rw [if_neg hzero]
        simp
    · have hprev : r ≤ j - 1 := Nat.le_sub_one_of_lt hgt
      rw [if_neg (not_lt.mpr hgt.le), if_neg hgt.ne', if_pos (Nat.zero_lt_of_lt hgt),
        decide_eq_false hgt.ne', decide_eq_true hprev, hkeep (j - 1) (by omega)]
      simp
  · intro p hp
    rw [hoff p hp, Function.update_of_ne]
    rintro rfl
    exact hp (Ancestor.self hpos)

/-- The two insertions leave the same array. -/
theorem insertOptimized_eq_insert {h : MinHeap oramSize} (hinv : h.Inv) (hsize : oramSize ≤ 2 ^ 64)
    {val : Value} (hval : val ≤ maxint) (hcap : h.numItems + 1 < oramSize) :
    h.insertOptimized val = h.insert val := by
  obtain ⟨mem, hmem, hplaced⟩ := insertOptimized_placed hinv hsize hval hcap
  obtain ⟨mem', hmem', hplaced', -⟩ := insert_placed hinv hval hcap
  rw [hmem, hmem', hplaced.unique (fun _ _ => BitVec.toNat_inj.mp) hplaced']

end MinHeap

end Prac
