import Prac.HeapRun

/-!
# The stream sampler (`heapsampler.hpp`, `heapsampler.cpp`)

A heap of at most `k` tagged elements: a random tag above the 21 bits of the element.  The bounds of
`Prac.Heap` on the memory apply to the heap here, which has the least power of two above `k` of cells.

* `weightedCoin` — the bit that decides of an arrival; `weightedCoin_card` — how many of the random words
  make it 1.
* `HeapSampler.ingest`, `HeapSampler.ingests` — one arrival and a stream of them, on reconstructed
  values.
* `closeOutput` — one output of `close` on the two players' shares: the mask, and the correction of
  the carry by a comparison (`closeOutput_eq`).
* `HeapSampler.close` — the extraction of the sample and the reset of the heap.
* `Sampling.Run` — the rule by which the stored multiset evolves, as a specification;
  `sampler_correct` — the heap follows it, and `close` returns what is stored.
-/

namespace Prac

open Loop BinaryHeap

/-- `HEAPSAMPLE_TAG_BITS`. -/
def HEAPSAMPLE_TAG_BITS : Nat := 42

/-- `HEAPSAMPLE_ELT_BITS`. -/
def HEAPSAMPLE_ELT_BITS : Nat := 21

/-- The loop of `heapsize` on 64-bit words, with fuel. -/
def heapsizeLoop (k : Nat) : Nat → Nat → Option Nat
  | 0, _ => none
  | fuel + 1, ret => if ret ≤ k then heapsizeLoop k fuel (ret <<< 1 % 2 ^ 64) else some ret

/-- `heapsize`.  After 64 shifts the word is 0, and the loop does not end. -/
def heapsize (k : Nat) : Option Nat := heapsizeLoop k 65 1

/-- `weighted_coin`, from the XOR of the players' random words. -/
def weightedCoin (k m : Nat) (rand : Value) : Bool :=
  let limit : Value := BitVec.ofNat 64 (k <<< 63 / m)
  let (lt, _, _) := signedCompare (rand - limit)
  lt

theorem heapsizeLoop_eq {k : Nat} (hpos : 1 ≤ k) (hk : k < 2 ^ 63) {fuel j : Nat}
    (hj : j ≤ Nat.log2 k + 1) (hfuel : Nat.log2 k + 1 < j + fuel) :
    heapsizeLoop k fuel (2 ^ j) = some (2 ^ (Nat.log2 k + 1)) := by
  have hlog : Nat.log2 k < 63 := (Nat.log2_lt (by omega)).mpr hk
  induction fuel generalizing j with
  | zero => omega
  | succ fuel ih =>
      unfold heapsizeLoop
      by_cases hle : 2 ^ j ≤ k
      · have hj' : j ≤ Nat.log2 k := (Nat.le_log2 (by omega)).mpr hle
        have hlt : 2 ^ (j + 1) < 2 ^ 64 := Nat.pow_lt_pow_right one_lt_two (by omega)
        have hshift : 2 ^ j <<< 1 % 2 ^ 64 = 2 ^ (j + 1) := by
          rw [Nat.shiftLeft_eq, ← Nat.pow_succ, Nat.mod_eq_of_lt hlt]
        rw [if_pos hle, hshift]
        exact ih (by omega) (by omega)
      · have hj' : ¬ j ≤ Nat.log2 k := fun h => hle ((Nat.le_log2 (by omega)).mp h)
        rw [if_neg hle, (by omega : j = Nat.log2 k + 1)]

/-- The heap gets the least power of two above `k`. -/
theorem heapsize_eq {k : Nat} (hpos : 1 ≤ k) (hk : k < 2 ^ 63) :
    heapsize k = some (2 ^ (Nat.log2 k + 1)) := by
  have hlog : Nat.log2 k < 63 := (Nat.log2_lt (by omega)).mpr hk
  exact @heapsizeLoop_eq k hpos hk 65 0 (by omega) (by omega)

theorem coinLimit_lt {k m : Nat} (hk : k < m) : k * 2 ^ 63 / m < 2 ^ 63 := by
  rw [Nat.div_lt_iff_lt_mul (by omega), Nat.mul_comm]
  exact Nat.mul_lt_mul_of_pos_left hk (Nat.two_pow_pos 63)

/-- The coin is 1 if the random word is below the limit. -/
theorem weightedCoin_eq {k m : Nat} (hk : k < m) {rand : Value} (hrand : rand ≤ maxint) :
    weightedCoin k m rand = decide (rand.toNat < k * 2 ^ 63 / m) := by
  have hlt := coinLimit_lt hk
  have hlimit : (BitVec.ofNat 64 (k <<< 63 / m)).toNat = k * 2 ^ 63 / m := by
    rw [BitVec.toNat_ofNat, Nat.shiftLeft_eq, Nat.mod_eq_of_lt (by omega)]
  have hmax : maxint.toNat = 2 ^ 63 - 1 := rfl
  unfold weightedCoin
  dsimp only
  rw [signedCompare_sub hrand (BitVec.le_def.mpr (by omega)), hlimit]

/-- **The coin is fair for its weight**: it is 1 for `k * 2 ^ 63 / m` of the random words, which `randomize(63)`
draws from `2 ^ 63`. -/
theorem weightedCoin_card {k m : Nat} (hk : k < m) :
    ((Finset.range (2 ^ 63)).filter fun rand => weightedCoin k m (BitVec.ofNat 64 rand) = true).card =
      k * 2 ^ 63 / m := by
  have hlt := coinLimit_lt hk
  have hcoin : ∀ rand < 2 ^ 63, (weightedCoin k m (BitVec.ofNat 64 rand) = true ↔ rand < k * 2 ^ 63 / m) := by
    intro rand hrand
    have hword : (BitVec.ofNat 64 rand).toNat = rand := by
      rw [BitVec.toNat_ofNat, Nat.mod_eq_of_lt (hrand.trans (by decide))]
    have hmax : maxint.toNat = 2 ^ 63 - 1 := rfl
    rw [weightedCoin_eq hk (BitVec.le_def.mpr (by omega)), hword, decide_eq_true_iff]
  have hfilter : ((Finset.range (2 ^ 63)).filter fun rand =>
      weightedCoin k m (BitVec.ofNat 64 rand) = true) = Finset.range (k * 2 ^ 63 / m) := by
    ext rand
    rw [Finset.mem_filter, Finset.mem_range, Finset.mem_range]
    constructor
    · rintro ⟨hrand, hone⟩
      exact (hcoin rand hrand).mp hone
    · intro hrand
      exact ⟨hrand.trans hlt, (hcoin rand (hrand.trans hlt)).mpr hrand⟩
  rw [hfilter, Finset.card_range]

/-- `HeapSampler`. -/
structure HeapSampler (oramSize : Nat) where
  k : Nat
  m : Nat
  heap : MinHeap oramSize
  randtag : Value

namespace HeapSampler

variable {oramSize : Nat}

/-- The constructor, with the tag that it draws. -/
def init (k : Nat) (randtag : Value) : HeapSampler oramSize := ⟨k, 0, .init, randtag⟩

/-- `(randtag << HEAPSAMPLE_ELT_BITS) + elt`. -/
def tagged (randtag elt : Value) : Value := (randtag <<< HEAPSAMPLE_ELT_BITS) + elt

/-- `HeapSampler::ingest`, with the selection bit that `weighted_coin` returns if it is called and the
tag that is drawn for the next element. -/
def ingest (s : HeapSampler oramSize) (elt : Value) (selection_bit : Bool) (nexttag : Value) :
    Option (HeapSampler oramSize) := do
  let m := s.m + 1
  let tagged_elt := tagged s.randtag elt
  let (elt_to_insert, heap) ←
    if m > s.k then
      (s.heap.extractMin 1).map fun (extracted_elt, heap) =>
        (select selection_bit extracted_elt tagged_elt, heap)
    else some (tagged_elt, s.heap)
  let heap ← heap.insertOptimized elt_to_insert
  return { s with m := m, heap := heap, randtag := nexttag }

/-- An arrival: the element, the selection bit and the tag that is drawn meanwhile. -/
structure Arrival where
  elt : Value
  selection_bit : Bool
  nexttag : Value

/-- A stream of arrivals. -/
def ingests (s : HeapSampler oramSize) (stream : List Arrival) : Option (HeapSampler oramSize) :=
  stream.foldlM (fun s a => s.ingest a.elt a.selection_bit a.nexttag) s

end HeapSampler

/-! ## Closing the stream -/

/-- What the players draw for one output of `close`: the split of the extracted word into shares, a
CDPF and a multiplication triple. -/
structure OutputCoins where
  share0 : Value
  seeds : Player → DPFnode
  asTarget : RegAS
  xsTarget : RegXS
  target : Value
  triple : MultTriple

/-- One output of `close`, from the extracted word: each player masks its share, and a carry out of the
low bits is found by a comparison and subtracted. -/
def closeOutput (prg : DPFnode → Bool → DPFnode) (coins : OutputCoins) (minval : Value) (p : Player) :
    RegAS :=
  let share (q : Player) : Value := if q.bit then minval - coins.share0 else coins.share0
  let ret (q : Player) : RegAS := ⟨share q &&& ((1 : Value) <<< HEAPSAMPLE_ELT_BITS - 1)⟩
  let limit (q : Player) : RegAS := ⟨if q.bit then 0 else (1 : Value) <<< HEAPSAMPLE_ELT_BITS⟩
  let cdpf := CDPF.generate prg coins.seeds coins.asTarget coins.xsTarget coins.target
  let cmp := CDPF.compare prg cdpf fun q => ret q - limit q
  let gteq (q : Player) : RegBS := ⟨(cmp q).2.2.bshare ^^ (cmp q).2.1.bshare⟩
  let fix := mpcSelect 64 coins.triple gteq (fun _ => 0) limit
  ret p - fix p

namespace HeapSampler

variable {oramSize : Nat}

/-- The extraction loop of `close`. -/
def extractAll (heap : MinHeap oramSize) (retsize : Nat) :
    Option (MinHeap oramSize × List Value) :=
  forRangeOpt 0 retsize (fun _ (heap, ret) =>
    (heap.extractMin 1).map fun (minval, heap) => (heap, ret ++ [minval])) (heap, [])

/-- `HeapSampler::close`, with the coins of each output. -/
def close (prg : DPFnode → Bool → DPFnode) (coins : Nat → OutputCoins) (s : HeapSampler oramSize) :
    Option (HeapSampler oramSize × List (Player → RegAS)) := do
  let retsize := if s.m < s.k then s.m else s.k
  let (_, ret) ← extractAll s.heap retsize
  return ({ s with heap := .init }, ret.mapIdx fun i minval => closeOutput prg (coins i) minval)

end HeapSampler

/-! ## The carry of masked shares -/

theorem toNat_eltMask (v : Value) :
    (v &&& ((1 : Value) <<< HEAPSAMPLE_ELT_BITS - 1)).toNat = v.toNat % 2 ^ 21 := by
  rw [BitVec.toNat_and]
  exact Nat.and_two_pow_sub_one_eq_mod v.toNat 21

/-- Masked shares add up to the masked word, but for a carry. -/
theorem masked_shares (a b : Value) :
    let mask : Value := (1 : Value) <<< HEAPSAMPLE_ELT_BITS - 1
    let limit : Value := (1 : Value) <<< HEAPSAMPLE_ELT_BITS
    let sum := (a &&& mask) + (b &&& mask)
    sum ≤ maxint ∧ limit ≤ maxint ∧
      sum - (if limit.toNat ≤ sum.toNat then limit else 0) = (a + b) &&& mask := by
  intro mask limit sum
  have hlimit : limit.toNat = 2 ^ 21 := rfl
  have hsum : sum.toNat = a.toNat % 2 ^ 21 + b.toNat % 2 ^ 21 := by
    show ((a &&& mask) + (b &&& mask)).toNat = _
    rw [BitVec.toNat_add, toNat_eltMask, toNat_eltMask]
    omega
  have hmax : maxint.toNat = 2 ^ 63 - 1 := rfl
  refine ⟨BitVec.le_def.mpr (by omega), BitVec.le_def.mpr (by omega), ?_⟩
  apply BitVec.eq_of_toNat_eq
  have hadd : (a + b).toNat = (a.toNat + b.toNat) % 2 ^ 64 := BitVec.toNat_add a b
  rw [toNat_eltMask, hlimit, hsum]
  split
  · rw [BitVec.toNat_sub, hlimit, hsum]
    omega
  · rw [sub_zero, hsum]
    omega

/-- The corrected shares of an output stand for the low bits of the extracted word. -/
theorem closeOutput_eq (prg : DPFnode → Bool → DPFnode) (coins : OutputCoins) (minval : Value) :
    (closeOutput prg coins minval .p0 + closeOutput prg coins minval .p1).ashare =
      minval &&& ((1 : Value) <<< HEAPSAMPLE_ELT_BITS - 1) := by
  obtain ⟨mask, hmask⟩ : ∃ mask, mask = (1 : Value) <<< HEAPSAMPLE_ELT_BITS - 1 := ⟨_, rfl⟩
  obtain ⟨limit, hlimit⟩ : ∃ limit : Value, limit = (1 : Value) <<< HEAPSAMPLE_ELT_BITS := ⟨_, rfl⟩
  obtain ⟨sum, hsum⟩ : ∃ sum, sum = (coins.share0 &&& mask) + ((minval - coins.share0) &&& mask) :=
    ⟨_, rfl⟩
  obtain ⟨hsummax, hlimitmax, hcarry⟩ :
      sum ≤ maxint ∧ limit ≤ maxint ∧
        sum - (if limit.toNat ≤ sum.toNat then limit else 0) = minval &&& mask := by
    have h := masked_shares coins.share0 (minval - coins.share0)
    dsimp only at h
    rwa [add_sub_cancel, ← hmask, ← hlimit, ← hsum] at h
  -- the comparison of the masked shares with the limit
  obtain ⟨xs, hxs⟩ : ∃ xs : Player → RegAS, xs = fun q =>
      ⟨(if q.bit then minval - coins.share0 else coins.share0) &&& mask⟩ -
        ⟨if q.bit then 0 else limit⟩ := ⟨_, rfl⟩
  have hdiff : (xs .p0 + xs .p1).ashare = sum - limit := by
    rw [hxs, hsum]
    show (coins.share0 &&& mask) - limit + (((minval - coins.share0) &&& mask) - 0) = _
    ring
  obtain ⟨cmp, hcmp⟩ : ∃ cmp, cmp = CDPF.compare prg
    (CDPF.generate prg coins.seeds coins.asTarget coins.xsTarget coins.target) xs := ⟨_, rfl⟩
  have hrefines := CDPF.compare_refines prg coins.seeds coins.asTarget coins.xsTarget coins.target xs
  dsimp only at hrefines
  rw [hdiff, signedCompare_sub hsummax hlimitmax, ← hcmp, Prod.mk.injEq, Prod.mk.injEq] at hrefines
  obtain ⟨-, heq, hgt⟩ := hrefines
  -- the correction
  obtain ⟨fix, hfix⟩ : ∃ fix, fix = mpcSelect 64 coins.triple
    (fun q => ⟨(cmp q).2.2.bshare ^^ (cmp q).2.1.bshare⟩) (fun _ => 0)
    (fun q => ⟨if q.bit then 0 else limit⟩) := ⟨_, rfl⟩
  have hselect : (fix .p0 + fix .p1).ashare = if limit.toNat ≤ sum.toNat then limit else 0 := by
    have h := mpcSelect_eq (le_refl 64) coins.triple
      (fun q => ⟨(cmp q).2.2.bshare ^^ (cmp q).2.1.bshare⟩) (fun _ => 0)
      (fun q => ⟨if q.bit then 0 else limit⟩)
    rw [truncate_64, truncate_64, ← hfix] at h
    have hgteq : (((cmp .p0).2.2.bshare ^^ (cmp .p0).2.1.bshare) ^^
        ((cmp .p1).2.2.bshare ^^ (cmp .p1).2.1.bshare)) = decide (limit.toNat ≤ sum.toNat) := by
      rw [Bool.xor_assoc, Bool.xor_left_comm (cmp .p0).2.1.bshare, ← Bool.xor_assoc, hgt, heq,
        Bool.eq_iff_iff, Bool.xor_iff_ne, ne_eq, decide_eq_decide, decide_eq_true_eq]
      omega
    rw [h, hgteq]
    simp
  have hout : (closeOutput prg coins minval .p0 + closeOutput prg coins minval .p1).ashare =
      sum - (fix .p0 + fix .p1).ashare := by
    unfold closeOutput
    dsimp only
    rw [← hmask, ← hlimit, ← hxs, ← hcmp, ← hfix, hsum]
    show (coins.share0 &&& mask) - (fix .p0).ashare +
      (((minval - coins.share0) &&& mask) - (fix .p1).ashare) = _
    rw [RegAS.ashare_add]
    ring
  rw [hout, hselect, hcarry, hmask]

/-! ## The stored multiset -/

namespace Sampling

/-- One arrival `x` after `m` others. -/
inductive Step (k m : Nat) : Multiset Value → Value → Bool → Multiset Value → Prop where
  | add (s : Multiset Value) (x : Value) (coin : Bool) (room : m + 1 ≤ k) : Step k m s x coin (x ::ₘ s)
  | replace (s : Multiset Value) (minval x : Value) (full : k < m + 1)
      (least : ∀ y ∈ minval ::ₘ s, minval.toNat ≤ y.toNat) :
      Step k m (minval ::ₘ s) x true (x ::ₘ s)
  | keep (s : Multiset Value) (x : Value) (full : k < m + 1) : Step k m s x false s

/-- A stream of arrivals, each with its coin. -/
inductive Run (k : Nat) : Nat → Multiset Value → List (Value × Bool) → Multiset Value → Prop where
  | nil (m : Nat) (s : Multiset Value) : Run k m s [] s
  | cons {m : Nat} {s s' s'' : Multiset Value} {x : Value} {coin : Bool}
      {rest : List (Value × Bool)} (head : Step k m s x coin s') (tail : Run k (m + 1) s' rest s'') :
      Run k m s ((x, coin) :: rest) s''

end Sampling

namespace HeapSampler

variable {oramSize : Nat}

/-- The tagged elements of a stream and their coins. -/
def taggedStream : Value → List Arrival → List (Value × Bool)
  | _, [] => []
  | randtag, a :: stream => (tagged randtag a.elt, a.selection_bit) :: taggedStream a.nexttag stream

/-- Elements of 21 bits, tags of 42 bits. -/
def Arrival.Valid (a : Arrival) : Prop := a.elt.toNat < 2 ^ 21 ∧ a.nexttag.toNat < 2 ^ HEAPSAMPLE_TAG_BITS

/-- The invariant of the sampler. -/
structure Inv (s : HeapSampler oramSize) : Prop where
  heap : s.heap.Inv
  numItems : s.heap.numItems = min s.k s.m
  pos : 1 ≤ s.k
  capacity : s.k < oramSize
  tag : s.randtag.toNat < 2 ^ HEAPSAMPLE_TAG_BITS

theorem init_inv {k : Nat} (hpos : 1 ≤ k) (hcap : k < oramSize) {tag : Value}
    (htag : tag.toNat < 2 ^ HEAPSAMPLE_TAG_BITS) : (init k tag : HeapSampler oramSize).Inv :=
  ⟨MinHeap.init_inv (by omega), (Nat.min_zero k).symm, hpos, hcap, htag⟩

/-- A tagged element leaves the top bit clear. -/
theorem tagged_le {tag elt : Value} (htag : tag.toNat < 2 ^ HEAPSAMPLE_TAG_BITS) (helt : elt.toNat < 2 ^ 21) :
    tagged tag elt ≤ maxint := by
  have hmax : maxint.toNat = 2 ^ 63 - 1 := rfl
  apply BitVec.le_def.mpr
  unfold tagged HEAPSAMPLE_ELT_BITS
  unfold HEAPSAMPLE_TAG_BITS at htag
  rw [BitVec.toNat_add, BitVec.toNat_shiftLeft, Nat.shiftLeft_eq, hmax]
  omega

variable {m : Nat}

theorem insertOptimized_spec {h : MinHeap oramSize} (hinv : h.Inv) (hsize : oramSize ≤ 2 ^ 64)
    {val : Value} (hval : val ≤ maxint) (hcap : h.numItems + 1 < oramSize) :
    ∃ h', h.insertOptimized val = some h' ∧ h'.Inv ∧ h'.numItems = h.numItems + 1 ∧
      items h'.oram h'.numItems = val ::ₘ items h.oram h.numItems := by
  rw [MinHeap.insertOptimized_eq_insert hinv hsize hval hcap]
  exact MinHeap.insert_spec hinv hval hcap

/-- An arrival keeps the invariant and is a step of the rule. -/
theorem ingest_spec {s : HeapSampler oramSize} (hinv : s.Inv) (hm : oramSize = 2 ^ m)
    (hsize : oramSize ≤ 2 ^ 64) {elt nexttag : Value} (helt : elt.toNat < 2 ^ 21)
    (hnext : nexttag.toNat < 2 ^ HEAPSAMPLE_TAG_BITS) (coin : Bool) :
    ∃ s', s.ingest elt coin nexttag = some s' ∧ s'.Inv ∧ s'.k = s.k ∧ s'.m = s.m + 1 ∧
      s'.randtag = nexttag ∧
      Sampling.Step s.k s.m (items s.heap.oram s.heap.numItems) (tagged s.randtag elt) coin
        (items s'.heap.oram s'.heap.numItems) := by
  have hcap := hinv.capacity
  have hnum := hinv.numItems
  have hpos := hinv.pos
  have htagged := tagged_le hinv.tag helt
  unfold ingest
  dsimp only
  by_cases hfull : s.m + 1 > s.k
  · obtain ⟨minval, h1, heq1, hinv1, hnum1, hitems1, hleast⟩ :=
      MinHeap.extractMin_spec hinv.heap (by omega) hm hsize true
    have heq1 : s.heap.extractMin 1 = some (minval, h1) := heq1
    have hminval : minval ≤ maxint := by
      have hmem : minval ∈ items s.heap.oram s.heap.numItems := hitems1 ▸ Multiset.mem_cons_self _ _
      obtain ⟨i, -, -, rfl⟩ := mem_items.mp hmem
      exact hinv.heap.le i
    rw [if_pos hfull, heq1]
    simp only [Option.map_some, Option.bind_eq_bind, Option.bind_some]
    cases coin with
    | true =>
        obtain ⟨h2, heq2, hinv2, hnum2, hitems2⟩ :=
          insertOptimized_spec hinv1 hsize htagged (by omega)
        refine ⟨⟨s.k, s.m + 1, h2, nexttag⟩, ?_, ⟨hinv2, ?_, hpos, hcap, hnext⟩, rfl, rfl, rfl, ?_⟩
        · rw [select, if_pos rfl, heq2]
          rfl
        · dsimp only
          omega
        · dsimp only
          rw [hitems2, ← hitems1]
          exact .replace _ _ _ hfull (fun y hy => hleast y (hitems1 ▸ hy))
    | false =>
        obtain ⟨h2, heq2, hinv2, hnum2, hitems2⟩ :=
          insertOptimized_spec hinv1 hsize hminval (by omega)
        refine ⟨⟨s.k, s.m + 1, h2, nexttag⟩, ?_, ⟨hinv2, ?_, hpos, hcap, hnext⟩, rfl, rfl, rfl, ?_⟩
        · rw [select, if_neg (by simp), heq2]
          rfl
        · dsimp only
          omega
        · dsimp only
          rw [hitems2, hitems1]
          exact .keep _ _ hfull
  · obtain ⟨h2, heq2, hinv2, hnum2, hitems2⟩ :=
      insertOptimized_spec hinv.heap hsize htagged (by omega)
    rw [if_neg hfull]
    simp only [Option.bind_eq_bind, Option.bind_some]
    rw [heq2]
    refine ⟨⟨s.k, s.m + 1, h2, nexttag⟩, rfl, ⟨hinv2, ?_, hpos, hcap, hnext⟩, rfl, rfl, rfl, ?_⟩
    · dsimp only
      omega
    · dsimp only
      rw [hitems2]
      exact .add _ _ _ (by omega)

/-- A stream keeps the invariant and follows the rule. -/
theorem ingests_spec (hm : oramSize = 2 ^ m) (hsize : oramSize ≤ 2 ^ 64) {stream : List Arrival}
    (hstream : ∀ a ∈ stream, a.Valid) {s : HeapSampler oramSize} (hinv : s.Inv) :
    ∃ s', s.ingests stream = some s' ∧ s'.Inv ∧ s'.k = s.k ∧ s'.m = s.m + stream.length ∧
      Sampling.Run s.k s.m (items s.heap.oram s.heap.numItems) (taggedStream s.randtag stream)
        (items s'.heap.oram s'.heap.numItems) := by
  induction stream generalizing s with
  | nil => exact ⟨s, rfl, hinv, rfl, rfl, .nil _ _⟩
  | cons a stream ih =>
      obtain ⟨helt, hnext⟩ := hstream a List.mem_cons_self
      obtain ⟨s1, heq1, hinv1, hk1, hm1, htag1, hstep⟩ :=
        ingest_spec hinv hm hsize helt hnext a.selection_bit
      obtain ⟨s2, heq2, hinv2, hk2, hm2, hrun⟩ :=
        ih (fun b hb => hstream b (List.mem_cons_of_mem _ hb)) hinv1
      refine ⟨s2, ?_, hinv2, hk2.trans hk1, ?_, ?_⟩
      · unfold ingests
        rw [List.foldlM_cons, heq1]
        exact heq2
      · rw [hm2, hm1, List.length_cons]
        omega
      · rw [hk1, hm1, htag1] at hrun
        exact .cons hstep hrun

/-! ## The sample returned -/

/-- As many extractions as there are items, or fewer, return what they remove. -/
theorem extractAll_spec (hm : oramSize = 2 ^ m) (hsize : oramSize ≤ 2 ^ 64) {heap : MinHeap oramSize}
    (hinv : heap.Inv) {retsize : Nat} (hle : retsize ≤ heap.numItems) :
    ∃ h ret, extractAll heap retsize = some (h, ret) ∧ h.numItems + retsize = heap.numItems ∧
      ret.length = retsize ∧
      (ret : Multiset Value) + items h.oram h.numItems = items heap.oram heap.numItems := by
  have hend := @forRangeOpt_inv _
    (fun _ (s : MinHeap oramSize × List Value) =>
      (s.1.extractMin 1).map fun out => (out.2, s.2 ++ [out.1])) (heap, []) 0 retsize
    (fun i s => s.1.Inv ∧ s.1.numItems + i = heap.numItems ∧ s.2.length = i ∧
      (s.2 : Multiset Value) + items s.1.oram s.1.numItems = items heap.oram heap.numItems)
    (Nat.zero_le _) ⟨hinv, rfl, rfl, Multiset.zero_add _⟩ ?_
  · obtain ⟨⟨h, ret⟩, heq, -, hnum, hlen, hitems⟩ := hend
    exact ⟨h, ret, heq, hnum, hlen, hitems⟩
  · rintro i ⟨h, ret⟩ - hi ⟨hinv, hnum, hlen, hitems⟩
    dsimp only at hinv hnum hlen hitems ⊢
    obtain ⟨minval, h1, heq1, hinv1, hnum1, hitems1, -⟩ :=
      MinHeap.extractMin_spec hinv (by omega) hm hsize true
    have heq1 : h.extractMin 1 = some (minval, h1) := heq1
    refine ⟨(h1, ret ++ [minval]), by rw [heq1]; rfl, hinv1, ?_, ?_, ?_⟩
    · dsimp only
      omega
    · rw [List.length_append, hlen, List.length_singleton]
    · dsimp only
      rw [← hitems, ← hitems1, ← Multiset.coe_add, Multiset.coe_singleton, Multiset.add_assoc,
        Multiset.singleton_add]

/-- `close` returns the low bits of everything stored, and resets the heap. -/
theorem close_spec (hm : oramSize = 2 ^ m) (hsize : oramSize ≤ 2 ^ 64) {s : HeapSampler oramSize}
    (hinv : s.Inv) (prg : DPFnode → Bool → DPFnode) (coins : Nat → OutputCoins) :
    ∃ outs, s.close prg coins = some ({ s with heap := .init }, outs) ∧
      outs.length = min s.k s.m ∧
      ((outs.map fun out => (out .p0 + out .p1).ashare : List Value) : Multiset Value) =
        (items s.heap.oram s.heap.numItems).map
          (· &&& ((1 : Value) <<< HEAPSAMPLE_ELT_BITS - 1)) := by
  have hretsize : (if s.m < s.k then s.m else s.k) = s.heap.numItems := by
    rw [hinv.numItems]
    split <;> omega
  obtain ⟨h, ret, heq, hnum, hlen, hitems⟩ := extractAll_spec hm hsize hinv.heap le_rfl
  have hzero : h.numItems = 0 := by omega
  rw [hzero, items_zero, Multiset.add_zero] at hitems
  refine ⟨ret.mapIdx fun i minval => closeOutput prg (coins i) minval, ?_, ?_, ?_⟩
  · unfold close
    dsimp only
    rw [hretsize, heq]
    rfl
  · rw [List.length_mapIdx, hlen, hinv.numItems]
  · rw [← hitems, Multiset.map_coe]
    congr 1
    apply List.ext_getElem (by simp)
    intro i _ _
    rw [List.getElem_map, List.getElem_mapIdx, List.getElem_map, closeOutput_eq]

end HeapSampler

/-- **The sampler over whole streams.**  After any stream of any length, with any tags and coins, the
heap holds `min k m` tagged elements that evolved by the rule, and `close` returns as many outputs,
whose shares stand for the elements stored, however the words are split into shares. -/
theorem sampler_correct {k : Nat} (hpos : 1 ≤ k) (hk : k < 2 ^ 63) {randtag : Value}
    (htag : randtag.toNat < 2 ^ HEAPSAMPLE_TAG_BITS) {stream : List HeapSampler.Arrival}
    (hstream : ∀ a ∈ stream, a.Valid) :
    ∃ size, heapsize k = some size ∧ ∃ s,
      (HeapSampler.init k randtag : HeapSampler size).ingests stream = some s ∧
      s.heap.numItems = min k stream.length ∧
      Sampling.Run k 0 0 (HeapSampler.taggedStream randtag stream)
        (items s.heap.oram s.heap.numItems) ∧
      ∀ prg coins, ∃ s' outs, s.close prg coins = some (s', outs) ∧
        outs.length = min k stream.length ∧
        ((outs.map fun out => (out .p0 + out .p1).ashare : List Value) : Multiset Value) =
          (items s.heap.oram s.heap.numItems).map
            (· &&& ((1 : Value) <<< HEAPSAMPLE_ELT_BITS - 1)) := by
  have hlog : Nat.log2 k < 63 := (Nat.log2_lt (by omega)).mpr hk
  have hsize : 2 ^ (Nat.log2 k + 1) ≤ 2 ^ 64 := Nat.pow_le_pow_right Nat.two_pos (by omega)
  refine ⟨_, heapsize_eq hpos hk, ?_⟩
  obtain ⟨s, heq, hinv, hk', hm', hrun⟩ := HeapSampler.ingests_spec rfl hsize hstream
    (HeapSampler.init_inv hpos Nat.lt_log2_self htag)
  have hk' : s.k = k := hk'
  have hm' : s.m = stream.length := hm'.trans (Nat.zero_add _)
  refine ⟨s, heq, by rw [hinv.numItems, hk', hm'], hrun, ?_⟩
  intro prg coins
  obtain ⟨outs, hclose, hlen, hvalues⟩ := HeapSampler.close_spec rfl hsize hinv prg coins
  exact ⟨_, outs, hclose, by rw [hlen, hk', hm'], hvalues⟩

/-- A stream of three elements into a sampler of two, of which the third replaces the least. -/
theorem sampler_correct_three : ∃ size, heapsize 2 = some size ∧ ∃ s,
    (HeapSampler.init 2 9 : HeapSampler size).ingests [⟨1, false, 7⟩, ⟨2, false, 8⟩, ⟨3, true, 5⟩] =
      some s ∧
      s.heap.numItems = min 2 3 ∧
      Sampling.Run 2 0 0 (HeapSampler.taggedStream 9 [⟨1, false, 7⟩, ⟨2, false, 8⟩, ⟨3, true, 5⟩])
        (items s.heap.oram s.heap.numItems) ∧
      ∀ prg coins, ∃ s' outs, s.close prg coins = some (s', outs) ∧ outs.length = min 2 3 ∧
        ((outs.map fun out => (out .p0 + out .p1).ashare : List Value) : Multiset Value) =
          (items s.heap.oram s.heap.numItems).map
            (· &&& ((1 : Value) <<< HEAPSAMPLE_ELT_BITS - 1)) :=
  @sampler_correct 2 (by decide) (by decide) 9 (by decide)
    [⟨1, false, 7⟩, ⟨2, false, 8⟩, ⟨3, true, 5⟩]
    (by simp [HeapSampler.Arrival.Valid, HEAPSAMPLE_TAG_BITS])

end Prac
