import Prac.Oram
import Prac.Lib.Loop
import Prac.Lib.SortingNetwork

/-!
# Bitonic sort (`duoram.tcc`)

* `Flat.osort` — the three parties' conditional exchange of two cells.  The randomness of each is an
  argument; `Flat.Sorting` deals it out in order.
* `Flat.butterfly`, `Flat.bitonicSort` — the recursion, over any exchange.  The coroutines of one round touch
  different cells and are run one after the other.
* `bitonicSort_eq` — the recursion runs the network `SortNet.sorter`.
* `Flat.Sorting.run_eq` — a network of exchanges does to the words what `SortNet.run` does.
* `bitonic_sort_correct` — what the sort leaves in the memory.
-/

namespace Prac

open Loop SortNet

variable {oramSize : Nat}

namespace Flat

/-! ## The exchange of two cells -/

/-- What the parties draw for one exchange: a CDPF, a multiplication triple, and the blinds of the two
updates. -/
structure OsortCoins where
  seeds : Player → DPFnode
  asTarget : RegAS
  xsTarget : RegXS
  target : Value
  triple : MultTriple
  blind1 : Player → RegAS
  blind2 : Player → RegAS

/-- `osort` at explicit indices. -/
def osort (prg : DPFnode → Bool → DPFnode) (shape : Shape oramSize) (explicitmode : Bool)
    (coins : OsortCoins) (idx1 idx2 : Nat) (dir : Bool) (mem : Duoram RegAS) : Duoram RegAS :=
  let val1 := MemRefExpl.read shape idx1 mem
  let val2 := MemRefExpl.read shape idx2 mem
  let cdpf := CDPF.generate prg coins.seeds coins.asTarget coins.xsTarget coins.target
  let diff (p : Player) := val1 p - val2 p
  let compared := CDPF.compare prg cdpf diff
  let cmp (p : Player) : RegBS := if dir then (compared p).1 else (compared p).2.2
  let cmp_diff := mpcFlagmult 64 coins.triple cmp diff
  let mem := MemRefExpl.update shape explicitmode idx1 (fun p => -cmp_diff p) coins.blind1 mem
  MemRefExpl.update shape explicitmode idx2 cmp_diff coins.blind2 mem

/-- The words after an update of one cell of the whole memory. -/
theorem update_words (explicitmode : Bool) (idx : Nat) (M blind : Player → RegAS) (mem : Duoram RegAS) :
    (MemRefExpl.update (Shape.whole oramSize).val explicitmode idx M blind mem).words =
      Function.update mem.words idx (mem.words idx + (M .p0 + M .p1).ashare) := by
  funext addr
  unfold Duoram.words
  rw [MemRefExpl.update_reconstruct, Shape.whole_cell]
  rcases eq_or_ne addr idx with rfl | hne
  · rw [if_pos rfl, Function.update_self]
    rfl
  · rw [if_neg (fun h => hne (Cell.mem.inj h).symm), Function.update_of_ne hne, add_zero]

/-- The difference that an exchange moves from one cell to the other. -/
theorem osort_difference (prg : DPFnode → Bool → DPFnode) (coins : OsortCoins) (dir : Bool)
    {diff : Player → RegAS} {x y : Value} (hx : x ≤ maxint) (hy : y ≤ maxint)
    (hdiff : (diff .p0 + diff .p1).ashare = x - y) :
    let compared := CDPF.compare prg
      (CDPF.generate prg coins.seeds coins.asTarget coins.xsTarget coins.target) diff
    let cmp (p : Player) : RegBS := if dir then (compared p).1 else (compared p).2.2
    let cmp_diff := mpcFlagmult 64 coins.triple cmp diff
    (cmp_diff .p0 + cmp_diff .p1).ashare =
      if (if dir then x.toNat < y.toNat else y.toNat < x.toNat) then x - y else 0 := by
  intro compared cmp cmp_diff
  have hrefines := CDPF.compare_refines prg coins.seeds coins.asTarget coins.xsTarget coins.target diff
  dsimp only at hrefines
  rw [hdiff, signedCompare_sub hx hy, Prod.mk.injEq, Prod.mk.injEq] at hrefines
  obtain ⟨hlt, -, hgt⟩ := hrefines
  have hmult := mpcFlagmult_eq (le_refl 64) coins.triple cmp diff
  rw [truncate_64, truncate_64, hdiff] at hmult
  have hcmp : ((cmp .p0).bshare ^^ (cmp .p1).bshare) =
      decide (if dir then x.toNat < y.toNat else y.toNat < x.toNat) := by
    cases dir
    · exact hgt
    · exact hlt
  rw [hmult, hcmp]
  simp only [decide_eq_true_eq]

/-- Moving the difference swaps two words, and moving none keeps them. -/
theorem move_difference (x y : Value) (c : Prop) [Decidable c] :
    (x + -(if c then x - y else 0)).toNat = (if c then y.toNat else x.toNat) ∧
      (y + if c then x - y else 0).toNat = if c then x.toNat else y.toNat := by
  split
  · have hx : x + -(x - y) = y := by ring
    have hy : y + (x - y) = x := by ring
    rw [hx, hy]
    exact ⟨rfl, rfl⟩
  · rw [neg_zero, add_zero, add_zero]
    exact ⟨rfl, rfl⟩

/-- The words after an exchange of two cells of the whole memory. -/
theorem osort_words (prg : DPFnode → Bool → DPFnode) (explicitmode : Bool) (coins : OsortCoins)
    {idx1 idx2 : Nat} (hne : idx1 ≠ idx2) (dir : Bool) {mem : Duoram RegAS}
    (h1 : mem.words idx1 ≤ maxint) (h2 : mem.words idx2 ≤ maxint) :
    BitVec.toNat ∘ (osort prg (Shape.whole oramSize).val explicitmode coins idx1 idx2 dir mem).words =
      exchange (ordered dir idx1 idx2) (BitVec.toNat ∘ mem.words) := by
  have hread idx : (MemRefExpl.read (Shape.whole oramSize).val idx mem .p0 +
      MemRefExpl.read (Shape.whole oramSize).val idx mem .p1).ashare = mem.words idx := by
    exact ((Shape.whole oramSize).val.reconstruct_eq_get mem idx).trans (Shape.whole_get _ _)
  obtain ⟨diff, hdiff⟩ : ∃ diff : Player → RegAS, diff = fun p =>
      MemRefExpl.read (Shape.whole oramSize).val idx1 mem p -
        MemRefExpl.read (Shape.whole oramSize).val idx2 mem p := ⟨_, rfl⟩
  have hsum : (diff .p0 + diff .p1).ashare = mem.words idx1 - mem.words idx2 := by
    rw [← hread idx1, ← hread idx2, hdiff]
    simp only [RegAS.ashare_add, RegAS.ashare_sub]
    ring
  have hmoved := osort_difference prg coins dir h1 h2 hsum
  dsimp only at hmoved
  rw [osort]
  simp only [← hdiff]
  have hneg (c : Player → RegAS) : (-c .p0 + -c .p1).ashare = -(c .p0 + c .p1).ashare := by
    simp only [RegAS.ashare_add, RegAS.ashare_neg]
    ring
  obtain ⟨hfirst, hsecond⟩ := move_difference (mem.words idx1) (mem.words idx2)
    (if dir then (mem.words idx1).toNat < (mem.words idx2).toNat
      else (mem.words idx2).toNat < (mem.words idx1).toNat)
  rw [update_words, update_words, Function.update_of_ne hne.symm, hneg, hmoved, Function.comp_update,
    Function.comp_update, hfirst, hsecond]
  have hmin (a b : Nat) : min a b = if b < a then b else a := by split <;> omega
  have hmax (a b : Nat) : max a b = if b < a then a else b := by split <;> omega
  have hexchange (i j : Nat) : exchange (i, j) (BitVec.toNat ∘ mem.words) =
      Function.update (Function.update (BitVec.toNat ∘ mem.words) i
        (min (mem.words i).toNat (mem.words j).toNat)) j
        (max (mem.words i).toNat (mem.words j).toNat) := rfl
  cases dir
  · refine Eq.trans ?_ (hexchange idx1 idx2).symm
    rw [hmin, hmax]
    rfl
  · refine Eq.trans ?_ (hexchange idx2 idx1).symm
    rw [hmin, hmax, Function.update_comm hne]
    rfl

/-! ## The recursion -/

/-- Addition of `address_t`. -/
def addAddress (a b : Nat) : Nat := (a + b) % 2 ^ addressMaxBits

theorem addAddress_eq {a b : Nat} (h : a + b < 2 ^ addressMaxBits) : addAddress a b = a + b :=
  Nat.mod_eq_of_lt h

/-- The loop of `butterfly` that doubles `leftlen`.  Once the product has wrapped around it never
ends, which is `none` here. -/
def leftlenLoop (len : Nat) : Nat → Nat → Option Nat
  | 0, _ => none
  | rounds + 1, leftlen =>
    if 2 * leftlen % 2 ^ addressMaxBits < len then
      leftlenLoop len rounds (2 * leftlen % 2 ^ addressMaxBits)
    else some leftlen

theorem leftlenLoop_lt {len rounds leftlen l : Nat} (hlen : 0 < len) (hlt : leftlen < len)
    (h : leftlenLoop len rounds leftlen = some l) : 0 < l ∧ l < len := by
  induction rounds generalizing leftlen with
  | zero => cases h
  | succ rounds ih =>
    rw [leftlenLoop] at h
    split at h
    next hless => exact ih hless h
    next hge =>
      cases h
      refine ⟨Nat.pos_of_ne_zero fun hzero => hge ?_, hlt⟩
      rw [hzero]
      exact hlen

section Recursion

variable {σ : Type} (sortPair : Nat → Nat → Bool → σ → σ)

/-- `butterfly`. -/
def butterfly (start len : Nat) (dir : Bool) (s : σ) : Option σ :=
  if h0 : len < 2 then some s
  else if h2 : len = 2 then some (sortPair start (addAddress start 1) dir s)
  else
    match h : leftlenLoop len (addressMaxBits + 1) 1 with
    | none => none
    | some leftlen =>
      have := leftlenLoop_lt (by omega) (by omega) h
      let rightlen := len - leftlen
      let offset := leftlen
      let s := forRange 0 rightlen (fun i s =>
        sortPair (addAddress start i) (addAddress (addAddress start i) offset) dir s) s
      (butterfly start leftlen dir s).bind fun s =>
        butterfly (addAddress start leftlen) rightlen dir s
termination_by len

/-- `bitonic_sort`. -/
def bitonicSort (start len : Nat) (dir : Bool) (s : σ) : Option σ :=
  if len < 2 then some s
  else if len = 2 then some (sortPair start (addAddress start 1) dir s)
  else
    let leftlen := addAddress len 1 >>> 1
    let rightlen := len >>> 1
    (bitonicSort start leftlen (!dir) s).bind fun s =>
      (bitonicSort (addAddress start leftlen) rightlen dir s).bind fun s =>
        butterfly sortPair start len dir s
termination_by len
decreasing_by
  · rw [Nat.shiftRight_one, addAddress]
    have := Nat.mod_le (len + 1) (2 ^ addressMaxBits)
    omega
  · rw [Nat.shiftRight_one]
    omega

/-- What the exchange function does at a comparator. -/
def comparatorStep (s : σ) (c : Comparator) : σ :=
  if c.1 < c.2 then sortPair c.1 c.2 false s else sortPair c.2 c.1 true s

theorem comparatorStep_ordered {i j : Nat} (hij : i < j) (dir : Bool) (s : σ) :
    comparatorStep sortPair s (ordered dir i j) = sortPair i j dir s := by
  cases dir
  · exact if_pos hij
  · exact if_neg (Nat.lt_asymm hij)

theorem leftlenLoop_eq {len rounds k : Nat} (hk : 2 ^ k < len) (hlen : len ≤ 2 ^ 31)
    (hrounds : 31 < rounds + k) : leftlenLoop len rounds (2 ^ k) = some (lower len) := by
  induction rounds generalizing k with
  | zero =>
    have hbig : 2 ^ 31 ≤ 2 ^ k := Nat.pow_le_pow_right Nat.two_pos (by omega)
    omega
  | succ rounds ih =>
    have hdouble : 2 * 2 ^ k = 2 ^ (k + 1) := Nat.pow_succ'.symm
    have haddr : 2 ^ addressMaxBits = 2 * 2 ^ 31 := Nat.pow_succ'
    rw [leftlenLoop, Nat.mod_eq_of_lt (by omega), hdouble]
    split
    next hless => exact ih hless (by omega)
    next hge => rw [lower_eq hk (by omega)]

/-- One round of `butterfly`. -/
theorem halver_run {start m k : Nat} (hm : 0 < m) (haddr : start + k + m ≤ 2 ^ addressMaxBits)
    (dir : Bool) (s : σ) :
    forRange 0 k (fun i s => sortPair (addAddress start i) (addAddress (addAddress start i) m) dir s) s =
      (halver dir start m k).foldl (comparatorStep sortPair) s := by
  refine forRange_inv (fun i s' => s' = (halver dir start m i).foldl (comparatorStep sortPair) s)
    (Nat.zero_le k) rfl ?_
  rintro i s' - hi rfl
  have hsplit : halver dir start m (i + 1) =
      halver dir start m i ++ [ordered dir (start + i) (start + i + m)] := by
    rw [halver, List.range_succ, List.map_append]
    rfl
  rw [hsplit, List.foldl_append, addAddress_eq (by omega), addAddress_eq (by omega)]
  exact (comparatorStep_ordered sortPair (by omega) dir _).symm

/-- The exchange of two cells, as the network of a range of two. -/
theorem pair_run {start : Nat} (haddr : start + 2 ≤ 2 ^ addressMaxBits) (dir : Bool) (s : σ) :
    sortPair start (addAddress start 1) dir s =
      (merger dir start 2).foldl (comparatorStep sortPair) s := by
  have hmerger : merger dir start 2 = [ordered dir start (start + 1)] := by
    rw [merger_eq (le_refl 2), merger_short (show lower 2 < 2 from Nat.one_lt_two),
      merger_short (show 2 - lower 2 < 2 from Nat.one_lt_two)]
    rfl
  rw [hmerger, addAddress_eq (by omega)]
  exact (comparatorStep_ordered sortPair (Nat.lt_succ_self start) dir s).symm

theorem butterfly_eq {start len : Nat} (hlen : len ≤ 2 ^ 31)
    (haddr : start + len ≤ 2 ^ addressMaxBits) (dir : Bool) (s : σ) :
    butterfly sortPair start len dir s =
      some ((merger dir start len).foldl (comparatorStep sortPair) s) := by
  induction len using Nat.strong_induction_on generalizing start s with
  | h len ih =>
    rw [butterfly]
    split
    next hshort =>
      rw [merger_short hshort]
      rfl
    next hlong =>
      split
      next htwo =>
        subst htwo
        rw [pair_run sortPair haddr]
      next hne =>
        have hlt := lower_lt (Nat.le_of_not_lt hlong)
        have hpos := lower_pos len
        have hloop : leftlenLoop len (addressMaxBits + 1) 1 = some (lower len) :=
          @leftlenLoop_eq len _ 0 (by omega) hlen (by decide)
        split
        next hnone =>
          rw [hloop] at hnone
          cases hnone
        next leftlen hsome =>
          rw [hloop] at hsome
          cases hsome
          have hround := halver_run sortPair hpos
            (show start + (len - lower len) + lower len ≤ 2 ^ addressMaxBits by omega) dir s
          dsimp only
          rw [hround, ih _ hlt (by omega) (by omega), Option.bind_some,
            addAddress_eq (by omega), ih _ (by omega) (by omega) (by omega),
            merger_eq (Nat.le_of_not_lt hlong), List.foldl_append, List.foldl_append]

/-- **The recursion** runs the bitonic sorting network. -/
theorem bitonicSort_eq {start len : Nat} (hlen : len ≤ 2 ^ 31)
    (haddr : start + len ≤ 2 ^ addressMaxBits) (dir : Bool) (s : σ) :
    bitonicSort sortPair start len dir s =
      some ((sorter dir start len).foldl (comparatorStep sortPair) s) := by
  induction len using Nat.strong_induction_on generalizing start dir s with
  | h len ih =>
    rw [bitonicSort]
    split
    next hshort =>
      rw [sorter_short hshort]
      rfl
    next hlong =>
      split
      next htwo =>
        subst htwo
        rw [sorter_eq (le_refl 2), sorter_short (by decide), sorter_short (by decide),
          pair_run sortPair haddr]
        rfl
      next hne =>
        have haddr' : 2 ^ addressMaxBits = 2 * 2 ^ 31 := Nat.pow_succ'
        have hleft : addAddress len 1 >>> 1 = (len + 1) / 2 := by
          rw [addAddress_eq (by omega), Nat.shiftRight_one]
        dsimp only
        rw [hleft, Nat.shiftRight_one, ih _ (by omega) (by omega) (by omega), Option.bind_some,
          addAddress_eq (by omega), ih _ (by omega) (by omega) (by omega), Option.bind_some,
          butterfly_eq sortPair hlen haddr, sorter_eq (Nat.le_of_not_lt hlong), List.foldl_append,
          List.foldl_append]

end Recursion

/-! ## Sorting the memory -/

/-- The memory during a sort, and how many exchanges have drawn their randomness. -/
structure Sorting where
  mem : Duoram RegAS
  drawn : Nat

namespace Sorting

/-- `osort` with the next randomness. -/
def osort (prg : DPFnode → Bool → DPFnode) (shape : Shape oramSize) (explicitmode : Bool)
    (coins : Nat → OsortCoins) (idx1 idx2 : Nat) (dir : Bool) (s : Sorting) : Sorting :=
  ⟨Flat.osort prg shape explicitmode (coins s.drawn) idx1 idx2 dir s.mem, s.drawn + 1⟩

/-- The values that the sort compares: at most 63 bits. -/
def InRange (start len : Nat) (mem : Duoram RegAS) : Prop :=
  ∀ k, start ≤ k → k < start + len → mem.words k ≤ maxint

/-- Words that are moved around in the range stay small. -/
theorem InRange.of_rearranges {start len : Nat} {mem mem' : Duoram RegAS} (h : InRange start len mem)
    (hmoved : Rearranges start len (BitVec.toNat ∘ mem.words) (BitVec.toNat ∘ mem'.words)) :
    InRange start len mem' := by
  intro k hlo hhi
  obtain ⟨j, ⟨hlo', hhi'⟩, heq⟩ := hmoved.exists_eq ⟨hlo, hhi⟩
  have hold := h j hlo' hhi'
  rw [BitVec.le_def] at hold ⊢
  exact (show (mem'.words k).toNat = (mem.words j).toNat from heq).trans_le hold

section Run

variable (prg : DPFnode → Bool → DPFnode) (explicitmode : Bool) (coins : Nat → OsortCoins)

/-- One exchange of a network. -/
theorem step_eq {start len : Nat} {c : Comparator} (hc : Within start len [c]) {s : Sorting}
    (hrange : InRange start len s.mem) :
    BitVec.toNat ∘ (comparatorStep (osort prg (Shape.whole oramSize).val explicitmode coins) s c).mem.words =
      exchange c (BitVec.toNat ∘ s.mem.words) := by
  obtain ⟨hne, ⟨hlo1, hhi1⟩, hlo2, hhi2⟩ := hc c List.mem_cons_self
  have h1 := hrange c.1 hlo1 hhi1
  have h2 := hrange c.2 hlo2 hhi2
  rw [comparatorStep]
  split
  · exact osort_words prg explicitmode (coins s.drawn) hne false h1 h2
  · exact osort_words prg explicitmode (coins s.drawn) hne.symm true h2 h1

/-- **A network of exchanges** does to the words of the range what the network does. -/
theorem run_eq {start len : Nat} {net : List Comparator} (hnet : Within start len net) {s : Sorting}
    (hrange : InRange start len s.mem) :
    BitVec.toNat ∘ (net.foldl
      (comparatorStep (osort prg (Shape.whole oramSize).val explicitmode coins)) s).mem.words =
      run net (BitVec.toNat ∘ s.mem.words) := by
  induction net generalizing s with
  | nil => rfl
  | cons c net ih =>
    have hc : Within start len [c] := fun c' hc' =>
      hnet c' (List.mem_singleton.1 hc' ▸ List.mem_cons_self)
    have hstep := @step_eq oramSize prg explicitmode coins start len c hc s hrange
    have hmoved := run_rearranges hc (BitVec.toNat ∘ s.mem.words)
    rw [run_cons, run_nil, ← hstep] at hmoved
    rw [List.foldl_cons, run_cons, ← hstep]
    exact ih (fun c' hc' => hnet c' (List.mem_cons_of_mem c hc')) (hrange.of_rearranges hmoved)

end Run

end Sorting

/-- **`bitonic_sort` sorts a range of any length**: it leaves a permutation of the old values, in the order
that was asked for, and every other cell as it was. -/
theorem bitonic_sort_correct (prg : DPFnode → Bool → DPFnode) (explicitmode : Bool)
    (coins : Nat → OsortCoins) (mem : Duoram RegAS) (hsize : oramSize ≤ 2 ^ addressMaxBits)
    {start len : Nat} (hlen : len ≤ 2 ^ 31) (hin : start + len ≤ oramSize) (dir : Bool)
    (hrange : ∀ k, start ≤ k → k < start + len → (mem.words k).toNat < 2 ^ 63) :
    ∃ s' : Sorting,
      bitonicSort (Sorting.osort prg (Shape.whole oramSize).val explicitmode coins) start len dir
        ⟨mem, 0⟩ = some s' ∧
      ((List.range' start len).map s'.mem.words).Perm ((List.range' start len).map mem.words) ∧
      (∀ i j, start ≤ i → i ≤ j → j < start + len →
        if dir then s'.mem.words j ≤ s'.mem.words i else s'.mem.words i ≤ s'.mem.words j) ∧
      ∀ k, ¬ (start ≤ k ∧ k < start + len) → s'.mem.words k = mem.words k := by
  obtain ⟨s', hs'⟩ : ∃ s', s' = (sorter dir start len).foldl (comparatorStep
    (Sorting.osort prg (Shape.whole oramSize).val explicitmode coins)) (Sorting.mk mem 0) := ⟨_, rfl⟩
  refine ⟨s', ?_, ?_⟩
  · rw [bitonicSort_eq _ hlen (hin.trans hsize) dir, hs']
  have hsmall : Sorting.InRange start len mem := fun k hlo hhi => by
    have hk := hrange k hlo hhi
    rw [BitVec.le_def]
    exact Nat.le_of_lt_succ hk
  have hnet := sorter_within dir start len
  have hrun : BitVec.toNat ∘ s'.mem.words = run (sorter dir start len) (BitVec.toNat ∘ mem.words) :=
    hs' ▸ Sorting.run_eq prg explicitmode coins hnet hsmall
  have hmoved : Rearranges start len mem.words s'.mem.words := by
    obtain ⟨σ, hσ, heq⟩ := run_rearranges hnet (BitVec.toNat ∘ mem.words)
    refine ⟨σ, hσ, funext fun k => BitVec.eq_of_toNat_eq ?_⟩
    exact congrFun (hrun.trans heq) k
  refine ⟨hmoved.perm, fun i j hi hij hj => ?_, fun k hk => hmoved.outside hk⟩
  cases dir with
  | false =>
    have hle := sorter_sorts start len (BitVec.toNat ∘ mem.words) i j hi hij hj
    rw [← hrun] at hle
    exact hle
  | true =>
    have hle := sorter_sorts_down start len (BitVec.toNat ∘ mem.words) i j hi hij hj
    rw [← hrun] at hle
    exact hle

/-- Shares of words that fall from 8. -/
def falling : Duoram RegAS where
  comp p := ⟨fun addr => ⟨if p.bit then -BitVec.ofNat 64 addr else 8⟩, 0, 0⟩
  server := ⟨0, 0⟩

/-- Sorting three of five words. -/
theorem bitonic_sort_three :
    ∃ s' : Sorting,
      bitonicSort (Sorting.osort (fun node right => if right then ~~~node else node + 1)
        (Shape.whole 5).val false
        fun n => ⟨fun _ => BitVec.ofNat 128 n, ⟨3⟩, ⟨5⟩, 7, ⟨fun _ => 2, fun _ => 3, fun _ => 6, by decide⟩,
          fun _ => ⟨1⟩, fun _ => ⟨1⟩⟩) 1 3 false ⟨falling, 0⟩ = some s' ∧
      ((List.range' 1 3).map s'.mem.words).Perm ((List.range' 1 3).map falling.words) ∧
      (∀ i j, 1 ≤ i → i ≤ j → j < 1 + 3 →
        if false then s'.mem.words j ≤ s'.mem.words i else s'.mem.words i ≤ s'.mem.words j) ∧
      ∀ k, ¬ (1 ≤ k ∧ k < 1 + 3) → s'.mem.words k = falling.words k :=
  @bitonic_sort_correct 5 _ _ _ falling (by decide) 1 3 (by decide) (by decide) false (by decide)

end Flat

end Prac
