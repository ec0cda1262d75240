import Prac.HeapInsert

/-!
# Heap extraction is correct

* `MinHeap.restoreOffsets_spec` — the offsets of a restore step exchange the node and its smaller
  child.
* `MinHeap.restoreHeapProperty_eq`, `MinHeap.restoreHeapPropertyOptimized_eq`,
  `MinHeap.restoreHeapPropertyAtExplicitIndex_eq` — however the cells are addressed, a restore is one
  sifting step.
* `MinHeap.extractMin_eq` — both variants of the extraction sift the last item down from the root.
* `MinHeap.extractMin_spec` — extraction keeps the invariant and returns the least item.
-/

namespace Prac

open Loop BinaryHeap

namespace MinHeap

variable {oramSize : Nat}

/-! ## One restore step -/

/-- The words with `v` added at one cell. -/
def addAt (mem : Words) (i : Nat) (v : Value) : Words := Function.update mem i (mem i + v)

theorem restoreOffsets_eq {parent left right : Value} (hp : parent ≤ maxint) (hl : left ≤ maxint)
    (hr : right ≤ maxint) :
    restoreOffsets parent left right =
      if left.toNat < right.toNat then
        if left.toNat < parent.toNat then (true, false, left - parent, parent - left)
        else (true, false, 0, 0)
      else if right.toNat < parent.toNat then (false, true, right - parent, 0)
      else (false, true, 0, 0) := by
  unfold restoreOffsets
  rw [signedCompare_sub hl hr]
  by_cases hlt : left.toNat < right.toNat
  · have hgteq : (decide (right.toNat < left.toNat) ^^ decide (left.toNat = right.toNat)) = false := by
      rw [decide_eq_false (by omega), decide_eq_false (by omega)]
      rfl
    simp only [hlt, decide_true, select, if_true, hgteq, signedCompare_sub hl hp, Bool.true_and,
      flagmult, decide_eq_true_eq]
    split_ifs <;> rfl
  · have hgteq : (decide (right.toNat < left.toNat) ^^ decide (left.toNat = right.toNat)) = true := by
      rw [Bool.xor_iff_ne, ne_eq, decide_eq_decide]
      omega
    simp only [hlt, decide_false, select, Bool.false_eq_true, if_false, hgteq,
      signedCompare_sub hr hp, Bool.false_and, flagmult, decide_eq_true_eq]
    split_ifs <;> rfl

/-- The three additions of a restore step, cell by cell. -/
theorem addAt_three (mem : Words) {i : Nat} (hi : 1 ≤ i) (u l : Value) (j : Nat) :
    addAt (addAt (addAt mem i u) (2 * i) l) (2 * i + 1) (-(u + l)) j =
      if j = i then mem i + u else if j = 2 * i then mem (2 * i) + l
      else if j = 2 * i + 1 then mem (2 * i + 1) - (u + l) else mem j := by
  have h1 : 2 * i ≠ i := by omega
  have h2 : 2 * i + 1 ≠ i := by omega
  have h3 : 2 * i + 1 ≠ 2 * i := by omega
  unfold addAt
  simp only [Function.update_apply, h1, h2, h3, if_false]
  rcases eq_or_ne j (2 * i + 1) with rfl | hne
  · simp [h2, sub_eq_add_neg]
  · rw [if_neg hne, if_neg hne]
    rcases eq_or_ne j (2 * i) with rfl | hne'
    · simp [h1]
    · simp [hne']

/-- The offsets exchange the node and its smaller child, if the child is smaller. -/
theorem restoreOffsets_spec {mem : Words} (hle : ∀ i, mem i ≤ maxint) {i : Nat} (hi : 1 ≤ i) :
    let o := restoreOffsets (mem i) (mem (2 * i)) (mem (2 * i + 1))
    let c := smallerChild BitVec.toNat mem i
    o.1 = decide (c = 2 * i) ∧ o.2.1 = decide (c = 2 * i + 1) ∧
      addAt (addAt (addAt mem i o.2.2.1) (2 * i) o.2.2.2) (2 * i + 1) (-(o.2.2.1 + o.2.2.2)) =
        compareExchange BitVec.toNat mem c i := by
  have hfun : ∀ u l : Value, addAt (addAt (addAt mem i u) (2 * i) l) (2 * i + 1) (-(u + l)) = _ :=
    fun u l => funext (addAt_three mem hi u l)
  dsimp only
  rw [restoreOffsets_eq (hle _) (hle _) (hle _)]
  unfold smallerChild compareExchange
  by_cases hlt : (mem (2 * i)).toNat < (mem (2 * i + 1)).toNat
  · rw [if_pos hlt, if_pos hlt]
    refine ⟨?_, ?_, ?_⟩
    · split_ifs <;> simp
    · split_ifs <;> simp
    · split
      · rw [hfun]
        funext j
        rcases eq_or_ne j i with rfl | hne
        · simp
        · rcases eq_or_ne j (2 * i) with rfl | hne'
          · simp [hne]
          · rw [if_neg hne, if_neg hne', exchange_of_ne mem hne' hne]
            simp only [sub_add_sub_cancel, sub_self, sub_zero, ite_eq_right_iff]
            rintro rfl
            rfl
      · simp [addAt]
  · rw [if_neg hlt, if_neg hlt]
    refine ⟨?_, ?_, ?_⟩
    · split_ifs <;> simp
    · split_ifs <;> simp
    · split
      · rw [hfun]
        funext j
        rcases eq_or_ne j i with rfl | hne
        · simp
        · rcases eq_or_ne j (2 * i + 1) with rfl | hne'
          · simp [hne]
          · rw [if_neg hne, if_neg hne', exchange_of_ne mem hne' hne, add_zero]
            simp only [ite_eq_right_iff]
            rintro rfl
            rfl
      · simp [addAt]

/-! ## Addressing -/

theorem flat_index_pos {index : Value} (h : index.toNat < oramSize) :
    ((flat oramSize).index index).pos = index.toNat := by
  apply Nat.mod_eq_of_lt
  refine lt_of_lt_of_le h ?_
  have hsize := (flat oramSize).size_le_pow_addrSize
  rwa [flat_size] at hsize

theorem flat_read (mem : Words) (index : Value) (h : index.toNat < oramSize) :
    (flat oramSize).read mem ((flat oramSize).index index) = mem index.toNat := by
  unfold Shape.read
  rw [flat_index_pos h, flat_size, if_pos h, flat_get]

theorem flat_add (mem : Words) (index : Value) (h : index.toNat < oramSize) (v : Value) :
    (flat oramSize).add mem ((flat oramSize).index index) v = addAt mem index.toNat v := by
  unfold Shape.add
  rw [flat_index_pos h, flat_size, if_pos h, flat_get, flat_set]
  rfl

theorem toNat_leftchildindex {index : Value} (h : 2 * index.toNat < 2 ^ 64) :
    (index <<< 1).toNat = 2 * index.toNat := by
  rw [BitVec.toNat_shiftLeft, Nat.shiftLeft_eq, Nat.mod_eq_of_lt (by omega)]
  omega

theorem toNat_rightchildindex {index : Value} (h : 2 * index.toNat < 2 ^ 64) :
    ((index <<< 1) ^^^ 1).toNat = 2 * index.toNat + 1 := by
  rw [BitVec.toNat_xor, toNat_leftchildindex h]
  simp

/-- The index of the smaller child, selected by the comparison of the children. -/
theorem select_smallerChild {mem : Words} {index : Value} (h : 2 * index.toNat < 2 ^ 64) {lt_c : Bool}
    (hlt : lt_c = decide (smallerChild BitVec.toNat mem index.toNat = 2 * index.toNat)) :
    (select lt_c ((index <<< 1) ^^^ 1) (index <<< 1)).toNat =
      smallerChild BitVec.toNat mem index.toNat := by
  have hhalf := smallerChild_half BitVec.toNat mem index.toNat
  unfold select
  rw [hlt]
  split
  · rename_i hleft
    rw [toNat_leftchildindex h, of_decide_eq_true hleft]
  · rename_i hright
    have hright := of_decide_eq_false (Bool.not_eq_true _ ▸ hright)
    rw [toNat_rightchildindex h]
    omega

/-- `restore_heap_property` is a sifting step. -/
theorem restoreHeapProperty_eq {mem : Words} (hle : ∀ i, mem i ≤ maxint) (hsize : oramSize ≤ 2 ^ 64)
    {index : Value} (hpos : 1 ≤ index.toNat) (hN : 2 * index.toNat + 1 < oramSize) :
    let s := restoreHeapProperty oramSize mem index
    (s.1.toNat, s.2) = siftStep BitVec.toNat (index.toNat, mem) := by
  have hbound : 2 * index.toNat < 2 ^ 64 := by omega
  have hleft := toNat_leftchildindex hbound
  have hright := toNat_rightchildindex hbound
  obtain ⟨hlt, -, hmem⟩ := restoreOffsets_spec hle hpos
  unfold restoreHeapProperty siftStep
  dsimp only
  rw [flat_read mem index (by omega), flat_read mem (index <<< 1) (by omega),
    flat_read mem (index <<< 1 ^^^ 1) (by omega), hleft, hright, flat_add _ index (by omega),
    flat_add _ (index <<< 1) (by omega), flat_add _ (index <<< 1 ^^^ 1) (by omega), hleft, hright,
    hmem, select_smallerChild hbound hlt]

/-- The shapes of one layer reach the node and its children through one index. -/
theorem layer_shapes (hsize : oramSize ≤ 2 ^ 64) {layer : Nat} (hN : 2 ^ (layer + 2) ≤ oramSize)
    {oidx : Index} (hpos : oidx.pos < 2 ^ layer) (mem : Words) :
    let P := Shape.subflat (flat oramSize) (1 <<< layer) (1 <<< layer)
    let C := Shape.subflat (flat oramSize) (2 <<< layer) (2 <<< layer)
    (P.read mem oidx = mem (2 ^ layer + oidx.pos) ∧
        (C.stride 0 2).read mem oidx = mem (2 * (2 ^ layer + oidx.pos)) ∧
        (C.stride 1 2).read mem oidx = mem (2 * (2 ^ layer + oidx.pos) + 1)) ∧
      ∀ v, P.add mem oidx v = addAt mem (2 ^ layer + oidx.pos) v ∧
        (C.stride 0 2).add mem oidx v = addAt mem (2 * (2 ^ layer + oidx.pos)) v ∧
        (C.stride 1 2).add mem oidx v = addAt mem (2 * (2 ^ layer + oidx.pos) + 1) v := by
  intro P C
  have h4 : 2 ^ (layer + 2) = 4 * 2 ^ layer := by ring
  have hlayer := Nat.two_pow_pos layer
  have hPsize : P.size = 2 ^ layer := by
    simp only [P, Shape.size, flat_size, Nat.one_shiftLeft, flatLen]
    rw [Nat.min_eq_left (by omega), if_neg (by omega)]
  have hCsize : C.size = 2 * 2 ^ layer := by
    simp only [C, Shape.size, flat_size, Nat.shiftLeft_eq, flatLen]
    rw [Nat.min_eq_left (by omega), if_neg (by omega)]
  have hLsize : (C.stride 0 2).size = 2 ^ layer := by
    rw [Shape.size, hCsize, Shape.strideNumElements_eq (by omega)]
    omega
  have hRsize : (C.stride 1 2).size = 2 ^ layer := by
    rw [Shape.size, hCsize, Shape.strideNumElements_eq (by omega)]
    omega
  have hPcell : P.cell oidx.pos = .mem (2 ^ layer + oidx.pos) := by
    rw [Shape.cell, Shape.whole_cell, flat_size, Nat.one_shiftLeft, Nat.min_eq_left (by omega),
      Nat.add_comm]
  have hCcell (i : Nat) : C.cell i = .mem (i + 2 * 2 ^ layer) := by
    rw [Shape.cell, Shape.whole_cell, flat_size, Nat.shiftLeft_eq, Nat.min_eq_left (by omega)]
  have hLcell : (C.stride 0 2).cell oidx.pos = .mem (2 * (2 ^ layer + oidx.pos)) := by
    rw [Shape.cell, hCcell, hCsize, Nat.zero_min]
    congr 1
    ring
  have hRcell : (C.stride 1 2).cell oidx.pos = .mem (2 * (2 ^ layer + oidx.pos) + 1) := by
    rw [Shape.cell, hCcell, hCsize, Nat.min_eq_left (by omega)]
    congr 1
    ring
  refine ⟨⟨?_, ?_, ?_⟩, fun v => ⟨?_, ?_, ?_⟩⟩
  · rw [Shape.read, hPsize, if_pos hpos, Shape.get, hPcell]
  · rw [Shape.read, hLsize, if_pos hpos, Shape.get, hLcell]
  · rw [Shape.read, hRsize, if_pos hpos, Shape.get, hRcell]
  · rw [Shape.add, hPsize, if_pos hpos, Shape.get, Shape.set, hPcell]
    rfl
  · rw [Shape.add, hLsize, if_pos hpos, Shape.get, Shape.set, hLcell]
    rfl
  · rw [Shape.add, hRsize, if_pos hpos, Shape.get, Shape.set, hRcell]
    rfl

/-- `restore_heap_property_optimized` is a sifting step, and tells whether it went right. -/
theorem restoreHeapPropertyOptimized_eq {mem : Words} (hle : ∀ i, mem i ≤ maxint)
    (hsize : oramSize ≤ 2 ^ 64) {index : Value} {layer : Nat} {oidx : Index}
    (hpos : oidx.pos < 2 ^ layer) (hindex : index.toNat = 2 ^ layer + oidx.pos)
    (hN : 2 ^ (layer + 2) ≤ oramSize) :
    let s := restoreHeapPropertyOptimized oramSize mem index layer oidx
    (s.1.1.toNat, s.2) = siftStep BitVec.toNat (index.toNat, mem) ∧
      s.1.2 = decide (s.1.1.toNat = 2 * index.toNat + 1) := by
  have h4 : 2 ^ (layer + 2) = 4 * 2 ^ layer := by ring
  have hlayer := Nat.two_pow_pos layer
  have hbound : 2 * index.toNat < 2 ^ 64 := by omega
  obtain ⟨o, ho⟩ : ∃ o, o = restoreOffsets (mem index.toNat) (mem (2 * index.toNat))
    (mem (2 * index.toNat + 1)) := ⟨_, rfl⟩
  obtain ⟨hlt, hgteq, hmem⟩ := ho ▸ restoreOffsets_spec hle (i := index.toNat) (by omega)
  obtain ⟨hPread, hLread, hRread⟩ := (layer_shapes hsize hN hpos mem).1
  have hPadd mem v := ((layer_shapes hsize hN hpos mem).2 v).1
  have hLadd mem v := ((layer_shapes hsize hN hpos mem).2 v).2.1
  have hRadd mem v := ((layer_shapes hsize hN hpos mem).2 v).2.2
  rw [← hindex] at hPread hLread hRread hPadd hLadd hRadd
  unfold restoreHeapPropertyOptimized siftStep
  dsimp only
  simp only [hPread, hLread, hRread, ← ho, hPadd, hLadd, hRadd]
  rw [add_comm o.2.2.2, hmem, select_smallerChild hbound hlt]
  exact ⟨rfl, hgteq⟩

/-- `restore_heap_property_at_explicit_index` is a sifting step, and tells whether it went right. -/
theorem restoreHeapPropertyAtExplicitIndex_eq {mem : Words} (hle : ∀ i, mem i ≤ maxint)
    (hsize : oramSize ≤ 2 ^ 64) {index : Nat} (hpos : 1 ≤ index) (hN : 2 * index + 1 < oramSize) :
    let s := restoreHeapPropertyAtExplicitIndex oramSize mem index
    (s.1.1.toNat, s.2) = siftStep BitVec.toNat (index, mem) ∧
      s.1.2 = decide (s.1.1.toNat = 2 * index + 1) := by
  obtain ⟨hlt, hgteq, hmem⟩ := restoreOffsets_spec hle hpos
  obtain ⟨c, hc⟩ : ∃ c, c = smallerChild BitVec.toNat mem index := ⟨_, rfl⟩
  have hhalf : c / 2 = index := hc ▸ smallerChild_half BitVec.toNat mem index
  rw [← hc] at hlt hgteq hmem
  unfold restoreHeapPropertyAtExplicitIndex siftStep
  simp only [flat_get, flat_set, hlt, hgteq, ← hc]
  have hsmaller : ((if decide (c = 2 * index) = true then BitVec.ofNat 64 (2 * index) else 0) ^^^
      (if decide (c = 2 * index + 1) = true then BitVec.ofNat 64 (2 * index + 1) else 0)).toNat = c := by
    have hcases : c = 2 * index ∨ c = 2 * index + 1 := by omega
    rcases hcases with heq | heq
    · rw [decide_eq_true heq, decide_eq_false (by omega), if_pos rfl, if_neg Bool.false_ne_true,
        xor_zero, BitVec.toNat_ofNat, heq, Nat.mod_eq_of_lt (by omega)]
    · rw [decide_eq_false (by omega), decide_eq_true heq, if_neg Bool.false_ne_true, if_pos rfl,
        zero_xor, BitVec.toNat_ofNat, heq, Nat.mod_eq_of_lt (by omega)]
  rw [hsmaller]
  exact ⟨congrArg _ hmem, rfl⟩

/-! ## The loops -/

theorem siftStep_iterate_le {mem : Words} (hle : ∀ i, mem i ≤ maxint) (t i j : Nat) :
    ((siftStep BitVec.toNat)^[t] (i, mem)).2 j ≤ maxint := by
  induction t generalizing j with
  | zero => exact hle j
  | succ t ih =>
      rw [Function.iterate_succ_apply']
      exact compareExchange_le ih _ _ j

/-- The loop of the basic extraction sifts down. -/
theorem extractStep_loop (hsize : oramSize ≤ 2 ^ 64) {mem : Words} (hle : ∀ i, mem i ≤ maxint)
    {smaller : Value} {t : Nat} (hlo : 2 ≤ smaller.toNat) (hhi : smaller.toNat < 4)
    (hN : 2 ^ (t + 2) ≤ oramSize) :
    (forRange 0 t (fun _ => extractStep oramSize) (smaller, mem)).2 =
      sift BitVec.toNat t smaller.toNat mem := by
  have hend := @forRange_inv _ (fun _ => extractStep oramSize) (smaller, mem) _ _
    (fun k (s : Value × Words) =>
      (s.1.toNat, s.2) = (siftStep BitVec.toNat)^[k] (smaller.toNat, mem)) (Nat.zero_le t) rfl ?_
  · unfold sift
    rw [← hend]
  · intro k s _ hk hs
    have hlayer := siftStep_layer BitVec.toNat k mem (s := 1) (i := smaller.toNat) (by omega)
      (by omega)
    have hle' := siftStep_iterate_le hle k smaller.toNat
    rw [← hs] at hlayer hle'
    have hpow : 2 ^ (1 + k + 1 + 1) ≤ 2 ^ (t + 2) := Nat.pow_le_pow_right Nat.two_pos (by omega)
    have hdouble : 2 ^ (1 + k + 1 + 1) = 2 * 2 ^ (1 + k + 1) := Nat.pow_succ'
    have hpos := Nat.two_pow_pos (1 + k)
    rw [Function.iterate_succ_apply', ← hs]
    exact restoreHeapProperty_eq hle' hsize (by omega) (by omega)

/-- The loop of the optimized extraction sifts down; the index of the layer follows. -/
theorem extractStepOptimized_loop (hsize : oramSize ≤ 2 ^ 64) {mem : Words}
    (hle : ∀ i, mem i ≤ maxint) {smaller : Value} {t : Nat} (hlo : 2 ≤ smaller.toNat)
    (hhi : smaller.toNat < 4) {gteq : Bool} (hgteq : gteq = decide (smaller.toNat = 3))
    (hN : 2 ^ (t + 2) ≤ oramSize) :
    (forRange 0 t (extractStepOptimized oramSize) (smaller, Index.empty.incr gteq, mem)).2.2 =
      sift BitVec.toNat t smaller.toNat mem := by
  have hstart : (Index.empty.incr gteq).idx.toNat + 2 = smaller.toNat := by
    rw [Index.incr_idx (by decide) (by decide), hgteq]
    rcases (by omega : smaller.toNat = 2 ∨ smaller.toNat = 3) with heq | heq
    · rw [heq]
      rfl
    · rw [heq]
      rfl
  have ht : t + 2 ≤ 64 := (Nat.pow_le_pow_iff_right one_lt_two).mp (hN.trans hsize)
  have hend := @forRange_inv _ (extractStepOptimized oramSize) (smaller, Index.empty.incr gteq, mem) _ _
    (fun k (s : Value × Index × Words) =>
      (s.1.toNat, s.2.2) = (siftStep BitVec.toNat)^[k] (smaller.toNat, mem) ∧
        s.2.1.curdepth = k + 1 ∧ s.2.1.idx.toNat + 2 ^ (k + 1) = s.1.toNat)
    (Nat.zero_le t) ⟨rfl, rfl, hstart⟩ ?_
  · unfold sift
    rw [← hend.1]
  · rintro k ⟨index, oidx, mem'⟩ _ hk ⟨hs, hdepth, hidx⟩
    have hlayer := siftStep_layer BitVec.toNat k mem (s := 1) (i := smaller.toNat) (by omega)
      (by omega)
    have hle' := siftStep_iterate_le hle k smaller.toNat
    rw [← hs] at hlayer hle'
    dsimp only at hs hdepth hidx hlayer hle'
    have hexp : 2 ^ (1 + k + 1) = 2 * 2 ^ (k + 1) := by ring
    have hfit : oidx.idx.toNat < 2 ^ oidx.curdepth := by
      rw [hdepth]
      omega
    have hpow : 2 ^ (k + 1 + 2) ≤ oramSize :=
      (Nat.pow_le_pow_right Nat.two_pos (by omega)).trans hN
    have hpos : oidx.pos < 2 ^ (k + 1) := by
      rw [Index.pos_eq hfit, ← hdepth]
      exact hfit
    have hindex : index.toNat = 2 ^ (k + 1) + oidx.pos := by
      rw [Index.pos_eq hfit]
      omega
    obtain ⟨hstep, hright⟩ := restoreHeapPropertyOptimized_eq hle' hsize hpos hindex hpow
    obtain ⟨out, hout⟩ :
        ∃ out, out = restoreHeapPropertyOptimized oramSize mem' index (k + 1) oidx := ⟨_, rfl⟩
    rw [← hout] at hstep hright
    have hbody : extractStepOptimized oramSize k (index, oidx, mem') =
        (out.1.1, oidx.incr out.1.2, out.2) := hout ▸ rfl
    rw [hbody]
    refine ⟨?_, ?_, ?_⟩
    · rw [Function.iterate_succ_apply', ← hs]
      exact hstep
    · rw [Index.incr_curdepth, hdepth]
    · have hchild : out.1.1.toNat = smallerChild BitVec.toNat mem' index.toNat :=
        congrArg Prod.fst hstep
      have hhalf := smallerChild_half BitVec.toNat mem' index.toNat
      have hexp' : 2 ^ (k + 1 + 1) = 2 * 2 ^ (k + 1) := Nat.pow_succ'
      dsimp only
      rw [Index.incr_idx (oidx.curdepth.lt_of_le_of_lt hdepth.le (by omega)) hfit, hright]
      rw [← hchild] at hhalf
      rcases (by omega : out.1.1.toNat = 2 * index.toNat ∨ out.1.1.toNat = 2 * index.toNat + 1)
        with heq | heq
      · rw [decide_eq_false (by omega), Bool.toNat_false]
        omega
      · rw [decide_eq_true heq, Bool.toNat_true]
        omega

/-! ## Extraction -/

/-- The words after the last item has replaced the root. -/
def withoutRoot (h : MinHeap oramSize) : Words :=
  Function.update (Function.update h.oram 1 (h.oram h.numItems)) h.numItems maxint

theorem withoutRoot_of_lt {h : MinHeap oramSize} {v : Nat} (hv : 2 ≤ v) (hlt : v < h.numItems) :
    withoutRoot h v = h.oram v := by
  unfold withoutRoot
  rw [Function.update_of_ne hlt.ne, Function.update_of_ne (by omega)]

theorem withoutRoot_one {h : MinHeap oramSize} (htwo : 2 ≤ h.numItems) :
    withoutRoot h 1 = h.oram h.numItems := by
  unfold withoutRoot
  rw [Function.update_of_ne (by omega), Function.update_self]

/-- Both variants of the extraction sift the last item down from the root. -/
theorem extractMin_eq {h : MinHeap oramSize} (hinv : h.Inv) (hpos : 1 ≤ h.numItems) {m : Nat}
    (hm : oramSize = 2 ^ m) (hsize : oramSize ≤ 2 ^ 64) (isOptimized : Bool) :
    h.extractMin (if isOptimized then 1 else 0) = some (h.oram 1,
      ⟨if h.numItems = 1 then withoutRoot h
        else sift BitVec.toNat (Nat.log2 h.numItems) 1 (withoutRoot h), h.numItems - 1⟩) := by
  have hcap := hinv.capacity
  have hle : ∀ i, withoutRoot h i ≤ maxint :=
    update_le (update_le hinv.le (hinv.le _) 1) (BitVec.le_refl _) _
  unfold extractMin
  rw [if_neg (by omega)]
  simp only [flat_get, flat_set]
  by_cases hone : h.numItems = 1
  · rw [if_pos (by omega), if_pos hone]
    rfl
  have hlog : 2 ^ Nat.log2 h.numItems ≤ h.numItems := Nat.log2_self_le (by omega)
  obtain ⟨t, ht⟩ : ∃ t, Nat.log2 h.numItems = t + 1 := by
    have hpos : 1 ≤ Nat.log2 h.numItems := (Nat.le_log2 (by omega)).mpr (by omega)
    exact ⟨Nat.log2 h.numItems - 1, by omega⟩
  have hN : 2 ^ (t + 2) ≤ oramSize := by
    have hlt : 2 ^ (t + 1) < 2 ^ m := by
      rw [← ht, ← hm]
      omega
    rw [hm]
    exact Nat.pow_le_pow_right Nat.two_pos ((Nat.pow_lt_pow_iff_right one_lt_two).mp hlt)
  have hfour : 2 ^ 2 ≤ 2 ^ (t + 2) := Nat.pow_le_pow_right Nat.two_pos (Nat.le_add_left 2 t)
  rw [if_neg (by omega), if_neg (by omega), if_neg hone, ht, Nat.add_sub_cancel]
  obtain ⟨hroot, hright⟩ := restoreHeapPropertyAtExplicitIndex_eq hle hsize le_rfl (by omega)
  obtain ⟨out, hout⟩ :
      ∃ out, out = restoreHeapPropertyAtExplicitIndex oramSize (withoutRoot h) 1 := ⟨_, rfl⟩
  have hsift : sift BitVec.toNat (t + 1) 1 (withoutRoot h) =
      sift BitVec.toNat t out.1.1.toNat out.2 := by
    unfold sift
    rw [Function.iterate_succ_apply, ← hroot, ← hout]
  rw [← hout] at hroot hright
  have hhalf : out.1.1.toNat / 2 = 1 := by
    have hchild : out.1.1.toNat = smallerChild BitVec.toNat (withoutRoot h) 1 :=
      congrArg Prod.fst hroot
    rw [hchild]
    exact smallerChild_half BitVec.toNat (withoutRoot h) 1
  have hle' : ∀ i, out.2 i ≤ maxint := by
    have hmem : out.2 = (siftStep BitVec.toNat (1, withoutRoot h)).2 := congrArg Prod.snd hroot
    rw [hmem]
    exact compareExchange_le hle _ _
  have hwithout : Function.update (Function.update h.oram 1 (h.oram h.numItems)) h.numItems maxint =
      withoutRoot h := rfl
  rw [hwithout, ← hout, hsift]
  cases isOptimized with
  | false =>
      have hloop := @extractStep_loop _ hsize _ hle' out.1.1 t (by omega) (by omega) hN
      simpa using hloop
  | true =>
      have hloop := @extractStepOptimized_loop _ hsize _ hle' out.1.1 t (by omega)
        (by omega) _ hright hN
      simpa using hloop

/-- The last item may be dropped. -/
theorem Inv.dropLast {h : MinHeap oramSize} (hinv : h.Inv) (hpos : 1 ≤ h.numItems) :
    (⟨Function.update h.oram h.numItems maxint, h.numItems - 1⟩ : MinHeap oramSize).Inv := by
  refine ⟨(Nat.sub_le _ _).trans_lt hinv.capacity, ?_, ⟨?_, ?_⟩, ?_⟩
  · intro i hge hi
    dsimp only
    rcases eq_or_ne i h.numItems with rfl | hne
    · rw [Function.update_self]
      exact BitVec.le_def.mp (update_le hinv.le (BitVec.le_refl _) _ _)
    · rw [Function.update_of_ne hne]
      rcases eq_or_ne (i / 2) h.numItems with heq | hne'
      · rw [hinv.unused (by omega) hi]
        exact BitVec.le_def.mp (update_le hinv.le (BitVec.le_refl _) _ _)
      · rw [Function.update_of_ne hne']
        exact hinv.ordered i hge hi
  · intro i
    exact BitVec.le_def.mp (update_le hinv.le (BitVec.le_refl _) _ _)
  · intro j hlt hj
    dsimp only at hlt ⊢
    rcases eq_or_ne j h.numItems with rfl | hne
    · rw [Function.update_self]
    · rw [Function.update_of_ne hne]
      exact hinv.padded.top j (by omega) hj
  · exact (Function.update_of_ne (by omega) _ _).trans hinv.zero

/-- What is left once the last item has replaced the root are the other items. -/
theorem items_withoutRoot {h : MinHeap oramSize} (hpos : 1 ≤ h.numItems) :
    h.oram 1 ::ₘ items (withoutRoot h) (h.numItems - 1) = items h.oram h.numItems := by
  obtain ⟨n, hn⟩ : ∃ n, h.numItems = n + 1 := ⟨h.numItems - 1, by omega⟩
  have hrest : items (withoutRoot h) n = items (exchange h.oram 1 (n + 1)) n := by
    apply items_congr
    intro i hi hin
    rcases eq_or_ne i 1 with rfl | hne
    · rw [withoutRoot_one (by omega), exchange_left, hn]
    · rw [withoutRoot_of_lt (by omega) (by omega), exchange_of_ne h.oram hne (by omega)]
  rw [hn, Nat.add_sub_cancel, hrest, ← items_exchange h.oram (i := 1) (j := n + 1) ⟨le_rfl, by omega⟩
    ⟨by omega, le_rfl⟩, items_succ, exchange_right]

/-- Sifting the last item down from the root restores the invariant. -/
theorem Inv.sift_withoutRoot {h : MinHeap oramSize} (hinv : h.Inv) (hpos : 1 ≤ h.numItems)
    (hone : h.numItems ≠ 1) {m : Nat} (hm : oramSize = 2 ^ m) :
    (⟨sift BitVec.toNat (Nat.log2 h.numItems) 1 (withoutRoot h), h.numItems - 1⟩ :
        MinHeap oramSize).Inv ∧
      items (sift BitVec.toNat (Nat.log2 h.numItems) 1 (withoutRoot h)) (h.numItems - 1) =
        items (withoutRoot h) (h.numItems - 1) := by
  have hcap := hinv.capacity
  have hdrop := hinv.dropLast hpos
  have hcomm : withoutRoot h =
      Function.update (Function.update h.oram h.numItems maxint) 1 (h.oram h.numItems) :=
    Function.update_comm hone.symm _ _ _
  have hord : OrderedBelow BitVec.toNat (withoutRoot h) oramSize 1 :=
    hcomm ▸ hdrop.ordered.replaceRoot (h.oram h.numItems)
  have hpad : Padded BitVec.toNat (withoutRoot h) (h.numItems - 1) oramSize maxint.toNat := by
    rw [hcomm]
    refine ⟨?_, ?_⟩
    · intro i
      exact BitVec.le_def.mp (update_le hdrop.le (hinv.le _) 1 i)
    · intro j hlt hj
      rw [Function.update_of_ne (by omega)]
      exact hdrop.padded.top j hlt hj
  have hlog : Nat.log2 h.numItems < m :=
    (Nat.log2_lt (by omega)).mpr (hm ▸ hcap)
  have hlt : h.numItems < 2 ^ (Nat.log2 h.numItems + 1) := Nat.lt_log2_self
  obtain ⟨hord', hpad', hitems, hzero⟩ := hpad.sift hord (s := 0) (t := Nat.log2 h.numItems)
    le_rfl (by omega) (by rw [Nat.zero_add]; omega)
    (by rw [Nat.zero_add]; exact (Nat.pow_le_pow_right Nat.two_pos hlog).trans hm.ge)
  refine ⟨⟨hdrop.capacity, hord', hpad', hzero.trans ?_⟩, hitems⟩
  rw [hcomm, Function.update_of_ne (by omega)]
  exact hdrop.zero

/-- **Extraction.**  The invariant is kept, and the value returned is a least item, which is removed. -/
theorem extractMin_spec {h : MinHeap oramSize} (hinv : h.Inv) (hpos : 1 ≤ h.numItems) {m : Nat}
    (hm : oramSize = 2 ^ m) (hsize : oramSize ≤ 2 ^ 64) (isOptimized : Bool) :
    ∃ minval h', h.extractMin (if isOptimized then 1 else 0) = some (minval, h') ∧ h'.Inv ∧
      h'.numItems = h.numItems - 1 ∧
      minval ::ₘ items h'.oram h'.numItems = items h.oram h.numItems ∧
      ∀ x ∈ items h.oram h.numItems, minval.toNat ≤ x.toNat := by
  have hcap := hinv.capacity
  have hmin : ∀ x ∈ items h.oram h.numItems, (h.oram 1).toNat ≤ x.toNat := by
    intro x hx
    obtain ⟨i, hi, hin, rfl⟩ := mem_items.mp hx
    exact hinv.ordered.root_le hi (by omega)
  have hdrop := hinv.dropLast hpos
  refine ⟨_, _, extractMin_eq hinv hpos hm hsize isOptimized, ?_, rfl, ?_, hmin⟩
  · by_cases hone : h.numItems = 1
    · have hsame : withoutRoot h = Function.update h.oram h.numItems maxint := by
        unfold withoutRoot
        rw [hone, Function.update_idem]
      rw [if_pos hone, hsame]
      exact hdrop
    · rw [if_neg hone]
      exact (hinv.sift_withoutRoot hpos hone hm).1
  · by_cases hone : h.numItems = 1
    · rw [if_pos hone]
      exact items_withoutRoot hpos
    · rw [if_neg hone]
      dsimp only
      rw [(hinv.sift_withoutRoot hpos hone hm).2, items_withoutRoot hpos]

end MinHeap

end Prac
