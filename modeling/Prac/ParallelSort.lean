import Prac.BitonicSort
import Prac.Shares
import Prac.Lib.Concurrent
import Mathlib.Order.Interval.Set.Disjoint

/-!
# Bitonic sort, with its coroutines (`duoram.tcc`)

`bitonic_sort` and `butterfly` hand their halves to `run_coroutines`, and so does `osort` its two updates.

* `Flat.osortCoro` — the exchange of two cells, in segments.
* `Flat.butterflyCoro`, `Flat.bitonicSortCoro` — the trees of coroutines.  The randomness of an exchange is
  numbered by its path in the tree.
* `Flat.exchangeCoro` — the exchange in the clear, which `osortCoro` simulates; its segments touch the two
  cells only.
* `bitonicSortCoro_spec` — no two coroutines race, and one after the other they do what `Flat.bitonicSort`
  does.
* `parallel_sort_correct` — every interleaving sorts.
-/

namespace Prac

open Loop SortNet Concurrent CoroTree

variable {oramSize : Nat}

namespace Flat

/-- `osort` at explicit indices.  The loads make no communication, but other coroutines are let run between
them all the same. -/
def osortCoro (prg : DPFnode → Bool → DPFnode) (shape : Shape oramSize) (explicitmode : Bool)
    (coins : OsortCoins) (idx1 idx2 : Nat) (dir : Bool) : CoroTree (Duoram RegAS) :=
  .seg id fun mem =>
    let val1 := MemRefExpl.read shape idx1 mem
    .seg id fun mem =>
      let val2 := MemRefExpl.read shape idx2 mem
      let cdpf := CDPF.generate prg coins.seeds coins.asTarget coins.xsTarget coins.target
      let diff (p : Player) := val1 p - val2 p
      let compared := CDPF.compare prg cdpf diff
      let cmp (p : Player) : RegBS := if dir then (compared p).1 else (compared p).2.2
      let cmp_diff := mpcFlagmult 64 coins.triple cmp diff
      .par
        (.seg (MemRefExpl.update shape explicitmode idx1 (fun p => -cmp_diff p) coins.blind1) fun _ => .done)
        (.seg (MemRefExpl.update shape explicitmode idx2 cmp_diff coins.blind2) fun _ => .done)

/-! ## The recursion -/

section Recursion

variable {σ : Type} (sortPair : List Nat → Nat → Nat → Bool → CoroTree σ)

/-- `butterfly`; `none` if the loop that doubles `leftlen` never ends. -/
def butterflyCoro (path : List Nat) (start len : Nat) (dir : Bool) : Option (CoroTree σ) :=
  if h0 : len < 2 then some .done
  else if h2 : len = 2 then some (sortPair path start (addAddress start 1) dir)
  else
    match h : leftlenLoop len (addressMaxBits + 1) 1 with
    | none => none
    | some leftlen =>
      have := leftlenLoop_lt (by omega) (by omega) h
      let rightlen := len - leftlen
      let offset := leftlen
      let round := (List.range rightlen).map fun i =>
        sortPair ((2 + i) :: path) (addAddress start i) (addAddress (addAddress start i) offset) dir
      (butterflyCoro (0 :: path) start leftlen dir).bind fun left =>
        (butterflyCoro (1 :: path) (addAddress start leftlen) rightlen dir).map fun right =>
          .seq (parAll round) (.par left right)
termination_by len

theorem butterflyCoro_eq (path : List Nat) (start : Nat) {len leftlen : Nat} (hlen : 2 < len) (dir : Bool)
    (hloop : leftlenLoop len (addressMaxBits + 1) 1 = some leftlen) :
    butterflyCoro sortPair path start len dir =
      (butterflyCoro sortPair (0 :: path) start leftlen dir).bind fun left =>
        (butterflyCoro sortPair (1 :: path) (addAddress start leftlen) (len - leftlen) dir).map fun right =>
          .seq (parAll ((List.range (len - leftlen)).map fun i => sortPair ((2 + i) :: path) (addAddress start i)
            (addAddress (addAddress start i) leftlen) dir)) (.par left right) := by
  rw [butterflyCoro, dif_neg (by omega), dif_neg (by omega)]
  split
  next hnone =>
    rw [hloop] at hnone
    cases hnone
  next leftlen' hsome =>
    obtain rfl : leftlen = leftlen' := Option.some.inj (hloop.symm.trans hsome)
    rfl

/-- `bitonic_sort`. -/
def bitonicSortCoro (path : List Nat) (start len : Nat) (dir : Bool) : Option (CoroTree σ) :=
  if len < 2 then some .done
  else if len = 2 then some (sortPair path start (addAddress start 1) dir)
  else
    let leftlen := addAddress len 1 >>> 1
    let rightlen := len >>> 1
    (bitonicSortCoro (0 :: path) start leftlen (!dir)).bind fun left =>
      (bitonicSortCoro (1 :: path) (addAddress start leftlen) rightlen dir).bind fun right =>
        (butterflyCoro sortPair (2 :: path) start len dir).map fun merge => .seq (.par left right) merge
termination_by len
decreasing_by
  · rw [Nat.shiftRight_one, addAddress]
    have := Nat.mod_le (len + 1) (2 ^ addressMaxBits)
    omega
  · rw [Nat.shiftRight_one]
    omega

end Recursion

/-! ## The coroutines do not race -/

section Spec

variable {α : Type} {pair : Nat → Nat → Bool → CoroTree (Nat → α)}

/-- The cells of a range. -/
abbrev cells (start len : Nat) : Set Nat := Set.Ico start (start + len)

/-- An exchange of two cells that touches no others. -/
def IsExchange (pair : Nat → Nat → Bool → CoroTree (Nat → α)) : Prop :=
  ∀ i j dir, i ≠ j → RaceFree (pair i j dir) ∧ CoroTree.Within (OnCells {i, j}) (pair i j dir)

/-- What the coroutines of a range have in common: no races, no cells outside of it, and one after the other
the effect of a program. -/
structure Sound (start len : Nat) (program : (Nat → α) → Option (Nat → α)) (c : CoroTree (Nat → α)) : Prop where
  raceFree : RaceFree c
  within : CoroTree.Within (OnCells (cells start len)) c
  run_eq : ∀ s, program s = some (c.run s)

theorem Sound.within_mono {start len start' len' : Nat} {program : (Nat → α) → Option (Nat → α)}
    {c : CoroTree (Nat → α)} (h : Sound start len program c) (hlo : start' ≤ start)
    (hhi : start + len ≤ start' + len') : CoroTree.Within (OnCells (cells start' len')) c :=
  h.within.mono fun _ _ => OnCells.mono (Set.Ico_subset_Ico hlo hhi)

/-- Two halves in parallel. -/
theorem Sound.raceFree_par {start m k : Nat} {left right : (Nat → α) → Option (Nat → α)}
    {c d : CoroTree (Nat → α)} (hc : Sound start m left c) (hd : Sound (start + m) k right d) :
    RaceFree (.par c d) := by
  refine ⟨hc.raceFree, hd.raceFree, _, _, OnCells.commute ?_, hc.within, hd.within⟩
  exact Set.Ico_disjoint_Ico_same

theorem IsExchange.sound (h : IsExchange pair) {start : Nat} (haddr : start + 2 ≤ 2 ^ addressMaxBits)
    (dir : Bool) :
    Sound start 2 (fun s => some ((pair start (addAddress start 1) dir).run s))
      (pair start (addAddress start 1) dir) := by
  rw [addAddress_eq (by omega)]
  obtain ⟨hfree, hwithin⟩ := h start (start + 1) dir (by omega)
  refine ⟨hfree, hwithin.mono fun _ _ => OnCells.mono ?_, fun _ => rfl⟩
  rintro i (rfl | rfl)
  · exact ⟨le_rfl, by omega⟩
  · exact ⟨by omega, by omega⟩

/-- The exchanges of a round touch different cells. -/
theorem IsExchange.round (h : IsExchange pair) {start m k : Nat} (hm : 0 < m) (hk : k ≤ m)
    (haddr : start + k + m ≤ 2 ^ addressMaxBits) (dir : Bool) :
    let round := (List.range k).map fun i => pair (addAddress start i) (addAddress (addAddress start i) m) dir
    RaceFree (parAll round) ∧ CoroTree.Within (OnCells (cells start (m + k))) (parAll round) := by
  have hround : (List.range k).map (fun i =>
      pair (addAddress start i) (addAddress (addAddress start i) m) dir) =
      (List.range k).map fun i => pair (start + i) (start + i + m) dir := by
    refine List.map_congr_left fun i hi => ?_
    have hi := List.mem_range.mp hi
    rw [addAddress_eq (by omega), addAddress_eq (by omega)]
  have hpair i := h (start + i) (start + i + m) dir (by omega)
  dsimp only
  rw [hround]
  constructor
  · refine RaceFree.parAll (fun i _ => (hpair i).1) (fun i _ => (hpair i).2) ?_
    refine List.pairwise_lt_range.imp_of_mem fun {i j} hi hj hij => OnCells.commute ?_
    have hj := List.mem_range.mp hj
    rw [Set.disjoint_left]
    simp only [Set.mem_insert_iff, Set.mem_singleton_iff]
    omega
  · refine CoroTree.Within.parAll fun c hc => ?_
    obtain ⟨i, hi, rfl⟩ := List.mem_map.mp hc
    have hi := List.mem_range.mp hi
    refine (hpair i).2.mono fun _ _ => OnCells.mono ?_
    rintro x (rfl | rfl)
    · exact ⟨by omega, by omega⟩
    · exact ⟨by omega, by omega⟩

theorem run_round (start m k : Nat) (dir : Bool) (s : Nat → α) :
    (parAll ((List.range k).map fun i =>
      pair (addAddress start i) (addAddress (addAddress start i) m) dir)).run s =
      forRange 0 k (fun i s => (pair (addAddress start i) (addAddress (addAddress start i) m) dir).run s) s := by
  rw [run_parAll, List.foldl_map, List.range_eq_range']
  rfl

theorem butterflyCoro_spec (h : IsExchange pair) (path : List Nat) {start len : Nat} (hlen : len ≤ 2 ^ 31)
    (haddr : start + len ≤ 2 ^ addressMaxBits) (dir : Bool) :
    ∃ c, butterflyCoro (fun _ => pair) path start len dir = some c ∧
      Sound start len (butterfly (fun i j dir s => (pair i j dir).run s) start len dir) c := by
  induction len using Nat.strong_induction_on generalizing start path with
  | h len ih =>
    by_cases hshort : len < 2
    · refine ⟨.done, ?_, trivial, trivial, fun s => ?_⟩
      · rw [butterflyCoro, dif_pos hshort]
      · rw [butterfly, dif_pos hshort]
        rfl
    by_cases htwo : len = 2
    · subst htwo
      obtain ⟨hfree, hwithin, hrun⟩ := h.sound haddr dir
      refine ⟨_, by rw [butterflyCoro, dif_neg hshort, dif_pos rfl], hfree, hwithin, fun s => ?_⟩
      rw [butterfly, dif_neg hshort, dif_pos rfl]
    have hlt := lower_lt (Nat.le_of_not_lt hshort)
    have hpos := lower_pos len
    have hhalf := le_two_mul_lower len
    have hloop : leftlenLoop len (addressMaxBits + 1) 1 = some (lower len) :=
      @leftlenLoop_eq len _ 0 (by omega) hlen (by decide)
    obtain ⟨left, hleft, hsleft⟩ := @ih _ hlt (0 :: path) start (by omega) (by omega)
    obtain ⟨right, hright, hsright⟩ := @ih (len - lower len) (by omega) (1 :: path)
      (start + lower len) (by omega) (by omega)
    obtain ⟨hround, hwround⟩ := h.round hpos (show len - lower len ≤ lower len by omega)
      (show start + (len - lower len) + lower len ≤ 2 ^ addressMaxBits by omega) dir
    rw [Nat.add_sub_cancel' hlt.le] at hwround
    rw [butterflyCoro_eq _ _ _ (by omega) _ hloop, addAddress_eq (by omega), hleft, Option.bind_some, hright,
      Option.map_some]
    refine ⟨_, rfl, ⟨hround, hsleft.raceFree_par hsright⟩,
      ⟨hwround, hsleft.within_mono le_rfl (by omega), hsright.within_mono (by omega) (by omega)⟩, fun s => ?_⟩
    rw [butterfly, dif_neg hshort, dif_neg htwo]
    split
    next hnone =>
      rw [hloop] at hnone
      cases hnone
    next leftlen hsome =>
      obtain rfl : lower len = leftlen := Option.some.inj (hloop.symm.trans hsome)
      dsimp only
      rw [← run_round, hsleft.run_eq, Option.bind_some, addAddress_eq (by omega), hsright.run_eq]
      rfl

theorem bitonicSortCoro_spec (h : IsExchange pair) (path : List Nat) {start len : Nat} (hlen : len ≤ 2 ^ 31)
    (haddr : start + len ≤ 2 ^ addressMaxBits) (dir : Bool) :
    ∃ c, bitonicSortCoro (fun _ => pair) path start len dir = some c ∧
      Sound start len (bitonicSort (fun i j dir s => (pair i j dir).run s) start len dir) c := by
  induction len using Nat.strong_induction_on generalizing start path dir with
  | h len ih =>
    rw [bitonicSortCoro]
    split
    next hshort =>
      refine ⟨.done, rfl, trivial, trivial, fun s => ?_⟩
      rw [bitonicSort, if_pos hshort]
      rfl
    next hlong =>
      split
      next htwo =>
        subst htwo
        obtain ⟨hfree, hwithin, hrun⟩ := h.sound haddr dir
        refine ⟨_, rfl, hfree, hwithin, fun s => ?_⟩
        rw [bitonicSort, if_neg hlong, if_pos rfl]
      next hne =>
        have haddr' : 2 ^ addressMaxBits = 2 * 2 ^ 31 := Nat.pow_succ'
        have hleftlen : addAddress len 1 >>> 1 = (len + 1) / 2 := by
          rw [addAddress_eq (by omega), Nat.shiftRight_one]
        obtain ⟨left, hleft, hsleft⟩ := @ih ((len + 1) / 2) (by omega) (0 :: path) start (by omega)
          (by omega) (!dir)
        obtain ⟨right, hright, hsright⟩ := @ih (len / 2) (by omega) (1 :: path)
          (start + (len + 1) / 2) (by omega) (by omega) dir
        obtain ⟨merge, hmerge, hsmerge⟩ := butterflyCoro_spec h (2 :: path) hlen haddr dir
        dsimp only
        rw [hleftlen, Nat.shiftRight_one, hleft, Option.bind_some, addAddress_eq (by omega), hright,
          Option.bind_some, hmerge]
        refine ⟨_, rfl, ⟨hsleft.raceFree_par hsright, hsmerge.raceFree⟩,
          ⟨⟨hsleft.within_mono le_rfl (by omega), hsright.within_mono (by omega) (by omega)⟩, hsmerge.within⟩,
          fun s => ?_⟩
        rw [bitonicSort, if_neg hlong, if_neg hne]
        dsimp only
        rw [hleftlen, Nat.shiftRight_one, hsleft.run_eq, Option.bind_some, addAddress_eq (by omega),
          hsright.run_eq, Option.bind_some, hsmerge.run_eq]
        rfl

end Spec

/-! ## The exchange in the clear -/

/-- What an exchange moves from the one cell to the other. -/
def cmpDiff (dir : Bool) (x y : Value) : Value :=
  let (lt, _, gt) := signedCompare (x - y)
  flagmult (if dir then lt else gt) (x - y)

/-- The two updates of `osort`, on words. -/
def moveCoro (idx1 idx2 : Nat) (cmp_diff : Value) : CoroTree Words :=
  .par (.seg (fun w => Function.update w idx1 (w idx1 + -cmp_diff)) fun _ => .done)
    (.seg (fun w => Function.update w idx2 (w idx2 + cmp_diff)) fun _ => .done)

/-- `osort` on words, in the segments of `osortCoro`. -/
def exchangeCoro (idx1 idx2 : Nat) (dir : Bool) : CoroTree Words :=
  .seg id fun w =>
    let val1 := w idx1
    .seg id fun w => moveCoro idx1 idx2 (cmpDiff dir val1 (w idx2))

/-- A segment that changes one cell only, by what it holds. -/
theorem onCells_update {A : Set Nat} {i : Nat} (hi : i ∈ A) (f : Value → Value) {next : Words → CoroTree Words}
    (hnext : ∀ s t, next s = next t) : OnCells A (fun w => Function.update w i (f (w i))) next where
  keeps s k hk := by
    have hne : k ≠ i := by
      rintro rfl
      exact hk hi
    exact Function.update_of_ne hne ..
  congr s t heq k hk := by
    rcases eq_or_ne k i with rfl | hne
    · rw [Function.update_self, Function.update_self, heq hk]
    · rw [Function.update_of_ne hne, Function.update_of_ne hne, heq hk]
  next_congr s t _ := hnext s t

/-- A segment that reads one cell. -/
theorem onCells_load {A : Set Nat} {i : Nat} (hi : i ∈ A) (next : Value → CoroTree Words) :
    OnCells A id fun w => next (w i) where
  keeps _ _ _ := rfl
  congr _ _ heq := heq
  next_congr s t heq := by rw [heq hi]

theorem isExchange_exchangeCoro : IsExchange exchangeCoro := by
  intro i j dir hne
  have hleft (d : Value) : OnCells {i} (fun w => Function.update w i (w i + -d)) fun _ => .done :=
    onCells_update (Set.mem_singleton i) (fun v => v + -d) fun _ _ => rfl
  have hright (d : Value) : OnCells {j} (fun w => Function.update w j (w j + d)) fun _ => .done :=
    onCells_update (Set.mem_singleton j) (fun v => v + d) fun _ _ => rfl
  have hi : i ∈ ({i, j} : Set Nat) := Or.inl rfl
  have hj : j ∈ ({i, j} : Set Nat) := Or.inr rfl
  have hmove (d : Value) : RaceFree (moveCoro i j d) ∧ CoroTree.Within (OnCells {i, j}) (moveCoro i j d) := by
    refine ⟨⟨fun _ => trivial, fun _ => trivial, OnCells {i}, OnCells {j}, OnCells.commute ?_,
      ⟨hleft d, fun _ => trivial⟩, hright d, fun _ => trivial⟩, ⟨?_, fun _ => trivial⟩, ?_, fun _ => trivial⟩
    · exact Set.disjoint_singleton.mpr hne
    · exact (hleft d).mono (Set.singleton_subset_iff.mpr hi)
    · exact (hright d).mono (Set.singleton_subset_iff.mpr hj)
  refine ⟨fun _ _ => (hmove _).1, ?_, fun w => ⟨?_, fun _ => (hmove _).2⟩⟩
  · exact onCells_load hi fun x => .seg id fun w => moveCoro i j (cmpDiff dir x (w j))
  · exact onCells_load hj fun y => moveCoro i j (cmpDiff dir (w i) y)

theorem cmpDiff_eq (dir : Bool) {x y : Value} (hx : x ≤ maxint) (hy : y ≤ maxint) :
    cmpDiff dir x y = if (if dir then x.toNat < y.toNat else y.toNat < x.toNat) then x - y else 0 := by
  unfold cmpDiff
  rw [signedCompare_sub hx hy]
  cases dir <;> simp only [flagmult, decide_eq_true_eq, Bool.false_eq_true, if_false, if_true]

/-- The words after an exchange of two cells. -/
theorem exchangeCoro_run {i j : Nat} (hne : i ≠ j) (dir : Bool) {w : Words} (hi : w i ≤ maxint)
    (hj : w j ≤ maxint) :
    BitVec.toNat ∘ (exchangeCoro i j dir).run w = exchange (ordered dir i j) (BitVec.toNat ∘ w) := by
  have hrun : (exchangeCoro i j dir).run w = Function.update (Function.update w i (w i + -cmpDiff dir (w i) (w j)))
      j (Function.update w i (w i + -cmpDiff dir (w i) (w j)) j + cmpDiff dir (w i) (w j)) := rfl
  obtain ⟨hfirst, hsecond⟩ := move_difference (w i) (w j)
    (if dir then (w i).toNat < (w j).toNat else (w j).toNat < (w i).toNat)
  rw [hrun, Function.update_of_ne hne.symm, cmpDiff_eq dir hi hj, Function.comp_update,
    Function.comp_update, hfirst, hsecond]
  have hmin (a b : Nat) : min a b = if b < a then b else a := by split <;> omega
  have hmax (a b : Nat) : max a b = if b < a then a else b := by split <;> omega
  cases dir
  · simp only [ordered, exchange, hmin, hmax, Function.comp_apply, Bool.false_eq_true, if_false]
  · simp only [ordered, exchange, hmin, hmax, Function.comp_apply, if_true]
    rw [Function.update_comm hne]

/-- The words of a range that the sort can compare. -/
def Small (start len : Nat) (w : Words) : Prop := ∀ k, start ≤ k → k < start + len → w k ≤ maxint

theorem Small.of_rearranges {start len : Nat} {w w' : Words} (h : Small start len w)
    (hmoved : Rearranges start len (BitVec.toNat ∘ w) (BitVec.toNat ∘ w')) : Small start len w' := by
  intro k hlo hhi
  obtain ⟨j, ⟨hlo', hhi'⟩, heq⟩ := hmoved.exists_eq ⟨hlo, hhi⟩
  have hold := h j hlo' hhi'
  rw [BitVec.le_def] at hold ⊢
  exact (show (w' k).toNat = (w j).toNat from heq).trans_le hold

/-- A network of exchanges of words does what the network does. -/
theorem exchanges_eq {start len : Nat} {net : List Comparator} (hnet : SortNet.Within start len net) {w : Words}
    (hw : Small start len w) :
    BitVec.toNat ∘ net.foldl (comparatorStep fun i j dir w => (exchangeCoro i j dir).run w) w =
      SortNet.run net (BitVec.toNat ∘ w) := by
  induction net generalizing w with
  | nil => rfl
  | cons c net ih =>
    have hc : SortNet.Within start len [c] := fun c' hc' =>
      hnet c' (List.mem_singleton.1 hc' ▸ List.mem_cons_self)
    obtain ⟨hne, ⟨hlo1, hhi1⟩, hlo2, hhi2⟩ := hc c List.mem_cons_self
    have hstep : BitVec.toNat ∘ comparatorStep (fun i j dir w => (exchangeCoro i j dir).run w) w c =
        exchange c (BitVec.toNat ∘ w) := by
      rw [comparatorStep]
      split
      · exact exchangeCoro_run hne false (hw _ hlo1 hhi1) (hw _ hlo2 hhi2)
      · exact exchangeCoro_run hne.symm true (hw _ hlo2 hhi2) (hw _ hlo1 hhi1)
    have hmoved := run_rearranges hc (BitVec.toNat ∘ w)
    rw [run_cons, run_nil, ← hstep] at hmoved
    rw [List.foldl_cons, run_cons, ← hstep]
    exact ih (fun c' hc' => hnet c' (List.mem_cons_of_mem c hc')) (hw.of_rearranges hmoved)

/-! ## The three parties -/

/-- The words behind a memory, which is consistent outside explicit-only mode. -/
structure Stands (oramSize : Nat) (explicitmode : Bool) (mem : Duoram RegAS) (w : Words) : Prop where
  words : mem.words = w
  consistent : explicitmode = false → mem.Consistent oramSize

/-- An update of a cell. -/
theorem Stands.update {explicitmode : Bool} {mem : Duoram RegAS} {w : Words}
    (h : Stands oramSize explicitmode mem w) (idx : Nat) {M : Player → RegAS} {v : Value} (hM : reveal M = v)
    (blind : Player → RegAS) :
    Stands oramSize explicitmode
      (MemRefExpl.update (Shape.whole oramSize).val explicitmode idx M blind mem)
      (Function.update w idx (w idx + v)) where
  words := by
    rw [update_words, h.words, ← hM]
    rfl
  consistent hmode addr haddr := by
    rw [hmode]
    exact MemRefExpl.update_consistentAt _ idx M blind (h.consistent hmode addr haddr)

/-- A load of a cell. -/
theorem Stands.read {explicitmode : Bool} {mem : Duoram RegAS} {w : Words}
    (h : Stands oramSize explicitmode mem w) (idx : Nat) :
    reveal (MemRefExpl.read (Shape.whole oramSize).val idx mem) = w idx := by
  rw [← h.words, ← Shape.whole_get mem.words idx]
  exact (Shape.whole oramSize).val.reconstruct_eq_get mem idx

/-- The exchange of the three parties simulates the one in the clear. -/
theorem sim_osortCoro (prg : DPFnode → Bool → DPFnode) (explicitmode : Bool) (coins : OsortCoins)
    (idx1 idx2 : Nat) (dir : Bool) :
    Sim (Stands oramSize explicitmode)
      (osortCoro prg (Shape.whole oramSize).val explicitmode coins idx1 idx2 dir)
      (exchangeCoro idx1 idx2 dir) := by
  refine .seg (fun _ _ h => h) fun mem w hw => .seg (fun _ _ h => h) fun mem' w' hw' => ?_
  obtain ⟨diff, hdiff⟩ : ∃ diff : Player → RegAS, diff = fun p =>
    MemRefExpl.read (Shape.whole oramSize).val idx1 mem p -
      MemRefExpl.read (Shape.whole oramSize).val idx2 mem' p := ⟨_, rfl⟩
  obtain ⟨compared, hcompared⟩ : ∃ c, c = CDPF.compare prg
    (CDPF.generate prg coins.seeds coins.asTarget coins.xsTarget coins.target) diff := ⟨_, rfl⟩
  have hvalue : reveal diff = w idx1 - w' idx2 := by rw [hdiff, reveal_sub, hw.read, hw'.read]
  have hcmp : (reveal fun p => (if dir then (compared p).1 else (compared p).2.2 : RegBS)) =
      if dir then (signedCompare (w idx1 - w' idx2)).1 else (signedCompare (w idx1 - w' idx2)).2.2 := by
    have hcoins := reveal_compare prg ⟨coins.seeds, coins.asTarget, coins.xsTarget, coins.target⟩ diff
    rw [hvalue] at hcoins
    rw [← hcoins, hcompared]
    cases dir <;> rfl
  have hmove : reveal (mpcFlagmult 64 coins.triple
      (fun p => (if dir then (compared p).1 else (compared p).2.2 : RegBS)) diff) =
      cmpDiff dir (w idx1) (w' idx2) := by
    rw [reveal_flagmult, hcmp, hvalue]
    rfl
  rw [hcompared, hdiff] at hmove
  have hneg := (reveal_neg _).trans (congrArg Neg.neg hmove)
  exact .par (.seg (fun _ _ h => h.update idx1 hneg coins.blind1) fun _ _ _ => .ended)
    (.seg (fun _ _ h => h.update idx2 hmove coins.blind2) fun _ _ _ => .ended)

section Trees

variable {σ τ : Type} {R : σ → τ → Prop}

/-- Trees of exchanges that simulate each other simulate each other. -/
theorem sim_butterflyCoro {f : List Nat → Nat → Nat → Bool → CoroTree σ} {g : List Nat → Nat → Nat → Bool → CoroTree τ}
    (h : ∀ path i j dir, Sim R (f path i j dir) (g path i j dir)) (path : List Nat) (start len : Nat) (dir : Bool)
    {d : CoroTree τ} (hd : butterflyCoro g path start len dir = some d) :
    ∃ c, butterflyCoro f path start len dir = some c ∧ Sim R c d := by
  induction len using Nat.strong_induction_on generalizing start path d with
  | h len ih =>
    by_cases hshort : len < 2
    · rw [butterflyCoro, dif_pos hshort] at hd ⊢
      cases hd
      exact ⟨_, rfl, .ended⟩
    by_cases htwo : len = 2
    · rw [butterflyCoro, dif_neg hshort, dif_pos htwo] at hd ⊢
      cases hd
      exact ⟨_, rfl, h ..⟩
    cases hloop : leftlenLoop len (addressMaxBits + 1) 1 with
    | none =>
      rw [butterflyCoro, dif_neg hshort, dif_neg htwo] at hd
      split at hd
      next => cases hd
      next hsome =>
        rw [hloop] at hsome
        cases hsome
    | some leftlen =>
      have hlt := leftlenLoop_lt (by omega) (by omega) hloop
      rw [butterflyCoro_eq _ _ _ (by omega) _ hloop] at hd ⊢
      obtain ⟨left', hleft', hd⟩ := Option.bind_eq_some_iff.mp hd
      obtain ⟨right', hright', hd⟩ := Option.map_eq_some_iff.mp hd
      cases hd
      obtain ⟨left, hleft, hsleft⟩ := ih leftlen hlt.2 _ _ hleft'
      obtain ⟨right, hright, hsright⟩ := ih (len - leftlen) (by omega) _ _ hright'
      rw [hleft, Option.bind_some, hright]
      exact ⟨_, rfl, .seq (Sim.parAll fun i _ => h ..) (.par hsleft hsright)⟩

theorem sim_bitonicSortCoro {f : List Nat → Nat → Nat → Bool → CoroTree σ}
    {g : List Nat → Nat → Nat → Bool → CoroTree τ} (h : ∀ path i j dir, Sim R (f path i j dir) (g path i j dir))
    (path : List Nat) (start len : Nat) (dir : Bool) {d : CoroTree τ}
    (hd : bitonicSortCoro g path start len dir = some d) :
    ∃ c, bitonicSortCoro f path start len dir = some c ∧ Sim R c d := by
  induction len using Nat.strong_induction_on generalizing start path dir d with
  | h len ih =>
    rw [bitonicSortCoro] at hd ⊢
    by_cases hshort : len < 2
    · rw [if_pos hshort] at hd ⊢
      cases hd
      exact ⟨_, rfl, .ended⟩
    rw [if_neg hshort] at hd ⊢
    by_cases htwo : len = 2
    · rw [if_pos htwo] at hd ⊢
      cases hd
      exact ⟨_, rfl, h ..⟩
    rw [if_neg htwo] at hd ⊢
    obtain ⟨left', hleft', hd⟩ := Option.bind_eq_some_iff.mp hd
    obtain ⟨right', hright', hd⟩ := Option.bind_eq_some_iff.mp hd
    obtain ⟨merge', hmerge', hd⟩ := Option.map_eq_some_iff.mp hd
    cases hd
    have hleftlen : addAddress len 1 >>> 1 < len := by
      rw [Nat.shiftRight_one, addAddress]
      have := Nat.mod_le (len + 1) (2 ^ addressMaxBits)
      omega
    have hrightlen : len >>> 1 < len := by
      rw [Nat.shiftRight_one]
      omega
    obtain ⟨left, hleft, hsleft⟩ := ih _ hleftlen _ _ _ hleft'
    obtain ⟨right, hright, hsright⟩ := ih _ hrightlen _ _ _ hright'
    obtain ⟨merge, hmerge, hsmerge⟩ := sim_butterflyCoro h _ _ _ _ hmerge'
    dsimp only
    rw [hleft, Option.bind_some, hright, Option.bind_some, hmerge]
    exact ⟨_, rfl, .seq (.par hsleft hsright) hsmerge⟩

end Trees

/-- **`bitonic_sort` with its coroutines.**  In whatever order the segments of the coroutines are run, at all
parties alike, they can be run to the end; then the range holds a permutation of its old values, in the order
that was asked for, every other cell is as it was, and outside explicit-only mode the memory is ready for
oblivious accesses. -/
theorem parallel_sort_correct (prg : DPFnode → Bool → DPFnode) (explicitmode : Bool)
    (coins : List Nat → OsortCoins) {mem : Duoram RegAS}
    (hmem : explicitmode = false → mem.Consistent oramSize) (hsize : oramSize ≤ 2 ^ addressMaxBits)
    {start len : Nat} (hlen : len ≤ 2 ^ 31) (hin : start + len ≤ oramSize) (dir : Bool)
    (hrange : ∀ k, start ≤ k → k < start + len → mem.words k ≤ maxint) :
    ∃ c, bitonicSortCoro (fun path => osortCoro prg (Shape.whole oramSize).val explicitmode (coins path)) []
        start len dir = some c ∧
      Ensures c mem fun mem' =>
        ((List.range' start len).map mem'.words).Perm ((List.range' start len).map mem.words) ∧
        (∀ i j, start ≤ i → i ≤ j → j < start + len →
          if dir then mem'.words j ≤ mem'.words i else mem'.words i ≤ mem'.words j) ∧
        (∀ k, ¬ (start ≤ k ∧ k < start + len) → mem'.words k = mem.words k) ∧
        (explicitmode = false → mem'.Consistent oramSize) := by
  obtain ⟨d, hd, hsound⟩ := bitonicSortCoro_spec isExchange_exchangeCoro [] hlen (hin.trans hsize) dir
  obtain ⟨c, hc, hsim⟩ := sim_bitonicSortCoro
    (f := fun path => osortCoro prg (Shape.whole oramSize).val explicitmode (coins path))
    (fun path i j dir => sim_osortCoro prg explicitmode (coins path) i j dir) [] start len dir hd
  refine ⟨c, hc, (hsim.ensures hsound.raceFree ⟨rfl, hmem⟩).mono ?_⟩
  rintro mem' ⟨hwords, hconsistent⟩
  have hnet := sorter_within dir start len
  have hrun : BitVec.toNat ∘ mem'.words = SortNet.run (sorter dir start len) (BitVec.toNat ∘ mem.words) := by
    have hsort := hsound.run_eq mem.words
    rw [bitonicSort_eq _ hlen (hin.trans hsize)] at hsort
    rw [hwords, ← Option.some.inj hsort]
    exact exchanges_eq hnet hrange
  have hmoved : Rearranges start len mem.words mem'.words := by
    obtain ⟨σ, hσ, heq⟩ := run_rearranges hnet (BitVec.toNat ∘ mem.words)
    refine ⟨σ, hσ, funext fun k => BitVec.eq_of_toNat_eq ?_⟩
    exact congrFun (hrun.trans heq) k
  refine ⟨hmoved.perm, fun i j hi hij hj => ?_, fun k hk => hmoved.outside hk, hconsistent⟩
  cases dir with
  | false =>
    have hle := sorter_sorts start len (BitVec.toNat ∘ mem.words) i j hi hij hj
    rw [← hrun] at hle
    exact hle
  | true =>
    have hle := sorter_sorts_down start len (BitVec.toNat ∘ mem.words) i j hi hij hj
    rw [← hrun] at hle
    exact hle

/-- Three of five words that fall from 8, sorted in parallel. -/
theorem parallel_sort_three :
    let mem : Duoram RegAS := (Shape.whole 5).val.init (fun i => ⟨BitVec.ofNat 64 (8 - i)⟩) Duoram.create
    let coins (path : List Nat) : OsortCoins := ⟨fun _ => BitVec.ofNat 128 path.length, ⟨3⟩, ⟨5⟩, 7,
      multtriple (fun _ => 2) (fun _ => 3) 6, fun _ => ⟨1⟩, fun _ => ⟨4⟩⟩
    ∃ c, bitonicSortCoro (fun path => osortCoro (fun node right => if right then ~~~node else node + 1)
        (Shape.whole 5).val false (coins path)) [] 1 3 false = some c ∧
      Ensures c mem fun mem' =>
        ((List.range' 1 3).map mem'.words).Perm ((List.range' 1 3).map mem.words) ∧
        (∀ i j, 1 ≤ i → i ≤ j → j < 1 + 3 →
          if false then mem'.words j ≤ mem'.words i else mem'.words i ≤ mem'.words j) ∧
        (∀ k, ¬ (1 ≤ k ∧ k < 1 + 3) → mem'.words k = mem.words k) ∧
        (false = false → mem'.Consistent 5) := by
  intro mem coins
  have hmem : mem.Consistent 5 := fun addr haddr =>
    Shape.init_consistentAt _ _ (Duoram.create_consistent addr haddr)
  exact parallel_sort_correct _ false coins (fun _ => hmem) (by decide) (by decide) (by decide) false (by decide)

end Flat

end Prac
