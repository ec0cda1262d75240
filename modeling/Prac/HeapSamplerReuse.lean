import Prac.HeapSampler

/-!
# Reusing the sampler

`close` resets the heap of the sampler but not its count.  The next stream then starts with fewer items
in the heap than the count promises, and an extraction meets an empty heap.

* `HeapSampler.session` — a stream and its `close`.
* `HeapSampler.session_fails` — a session that starts with too few items fails.
* `sampler_reuse_iff` — a second session is as on a fresh sampler exactly if the first stream was empty.
-/

namespace Prac

open Loop

namespace MinHeap

variable {oramSize : Nat}

/-- An extraction that succeeds takes one item. -/
theorem extractMin_numItems {h h' : MinHeap oramSize} {isOptimized : Int} {minval : Value}
    (heq : h.extractMin isOptimized = some (minval, h')) : h'.numItems + 1 = h.numItems := by
  unfold extractMin at heq
  dsimp only at heq
  split at heq
  · cases heq
  · rename_i hguard
    have hnum : h'.numItems = h.numItems - 1 := by
      split at heq
      · cases heq
        rfl
      · split at heq
        · cases heq
        · cases heq
          rfl
    omega

theorem insertOptimized_numItems {h h' : MinHeap oramSize} {val : Value}
    (heq : h.insertOptimized val = some h') : h'.numItems = h.numItems + 1 := by
  unfold insertOptimized at heq
  dsimp only at heq
  split at heq
  · obtain ⟨_, -, rfl⟩ := Option.map_eq_some_iff.mp heq
    rfl
  · cases heq

end MinHeap

namespace HeapSampler

variable {oramSize : Nat}

/-- A stream, and its `close`. -/
def session (prg : DPFnode → Bool → DPFnode) (coins : Nat → OutputCoins) (s : HeapSampler oramSize)
    (stream : List Arrival) : Option (HeapSampler oramSize × List (Player → RegAS)) :=
  (s.ingests stream).bind (close prg coins)

/-- Fewer items in the heap than the count promises. -/
def Short (s : HeapSampler oramSize) : Prop := s.heap.numItems < min s.k s.m

theorem Short.ingest {s s' : HeapSampler oramSize} (h : s.Short) {elt nexttag : Value} {coin : Bool}
    (heq : s.ingest elt coin nexttag = some s') : s'.Short := by
  unfold Short at h ⊢
  unfold HeapSampler.ingest at heq
  dsimp only at heq
  split at heq
  · simp only [Option.bind_eq_bind, Option.bind_eq_some_iff, Option.map_eq_some_iff] at heq
    obtain ⟨_, ⟨⟨minval, heap⟩, hextract, rfl⟩, heap', hinsert, hs'⟩ := heq
    have hnum := MinHeap.extractMin_numItems hextract
    have hnum' := MinHeap.insertOptimized_numItems hinsert
    obtain rfl := Option.some.inj hs'
    dsimp only at hnum' ⊢
    omega
  · simp only [Option.bind_eq_bind, Option.bind_eq_some_iff, Option.some.injEq] at heq
    obtain ⟨_, rfl, heap', hinsert, hs'⟩ := heq
    have hnum' := MinHeap.insertOptimized_numItems hinsert
    obtain rfl := Option.some.inj hs'
    dsimp only at hnum' ⊢
    omega

theorem Short.ingests {stream : List Arrival} {s s' : HeapSampler oramSize} (h : s.Short)
    (heq : s.ingests stream = some s') : s'.Short := by
  induction stream generalizing s with
  | nil => exact Option.some.inj heq ▸ h
  | cons a stream ih =>
      unfold HeapSampler.ingests at heq
      rw [List.foldlM_cons] at heq
      obtain ⟨s1, heq1, heq2⟩ := Option.bind_eq_some_iff.mp heq
      exact ih (h.ingest heq1) heq2

/-- The extraction loop takes one item a round. -/
theorem extractAll_numItems {heap h : MinHeap oramSize} {retsize : Nat} {ret : List Value}
    (heq : extractAll heap retsize = some (h, ret)) : h.numItems + retsize = heap.numItems := by
  induction retsize generalizing h ret with
  | zero =>
      obtain ⟨rfl, -⟩ := Prod.mk.inj (Option.some.inj ((forRangeOpt_self 0 _ _).symm.trans heq))
      rfl
  | succ n ih =>
      unfold extractAll at heq
      rw [forRangeOpt_succ (Nat.zero_le n)] at heq
      obtain ⟨⟨h1, ret1⟩, heq1, heq2⟩ := Option.bind_eq_some_iff.mp heq
      obtain ⟨⟨minval, h2⟩, hextract, hpair⟩ := Option.map_eq_some_iff.mp heq2
      obtain ⟨rfl, -⟩ := Prod.mk.inj hpair
      have hnum := ih heq1
      have hnum' := MinHeap.extractMin_numItems hextract
      omega

/-- A session that starts with too few items fails: an extraction meets an empty heap. -/
theorem session_fails (prg : DPFnode → Bool → DPFnode) (coins : Nat → OutputCoins)
    {s : HeapSampler oramSize} (h : s.Short) (stream : List Arrival) :
    s.session prg coins stream = none := by
  rw [Option.eq_none_iff_forall_ne_some]
  intro out heq
  obtain ⟨s', hs', hclose⟩ := Option.bind_eq_some_iff.mp heq
  have hshort : s'.Short := h.ingests hs'
  unfold Short at hshort
  unfold close at hclose
  simp only [Option.bind_eq_bind, Option.bind_eq_some_iff] at hclose
  obtain ⟨⟨heap, ret⟩, hextract, -⟩ := hclose
  have hnum := extractAll_numItems hextract
  split at hnum <;> omega

/-- A session on a fresh sampler succeeds, and resets everything but the count and the tag. -/
theorem session_spec {m : Nat} (hm : oramSize = 2 ^ m) (hsize : oramSize ≤ 2 ^ 64) {k : Nat}
    {randtag : Value} (hinv : (init k randtag : HeapSampler oramSize).Inv)
    {stream : List Arrival} (hstream : ∀ a ∈ stream, a.Valid) (prg : DPFnode → Bool → DPFnode)
    (coins : Nat → OutputCoins) :
    ∃ s outs, (init k randtag : HeapSampler oramSize).session prg coins stream = some (s, outs) ∧
      s.heap = .init ∧ s.k = k ∧ s.m = stream.length ∧ outs.length = min k stream.length ∧
      (stream = [] → s = init k randtag) := by
  obtain ⟨s, heq, hinv', hk, hm', -⟩ := ingests_spec hm hsize hstream hinv
  obtain ⟨outs, hclose, hlen, -⟩ := close_spec hm hsize hinv' prg coins
  have hk : s.k = k := hk
  have hm' : s.m = stream.length := hm'.trans (Nat.zero_add _)
  refine ⟨{ s with heap := .init }, outs, ?_, rfl, hk, hm', by rw [hlen, hk, hm'], ?_⟩
  · unfold session
    rw [heq]
    exact hclose
  · rintro rfl
    obtain rfl := Option.some.inj heq
    rfl

/-- After a session that had an arrival the sampler is short. -/
theorem short_of_session {s : HeapSampler oramSize} (hheap : s.heap = .init) (hk : 1 ≤ s.k)
    (hm : 1 ≤ s.m) : s.Short := by
  have hzero : s.heap.numItems = 0 := hheap ▸ rfl
  unfold Short
  omega

end HeapSampler

/-- **Reuse.**  After a first session, a second one returns what a fresh sampler returns, given the same
tags and coins, if and only if the first stream was empty. -/
theorem sampler_reuse_iff {k : Nat} (hpos : 1 ≤ k) (hk : k < 2 ^ 63) {randtag : Value}
    (htag : randtag.toNat < 2 ^ HEAPSAMPLE_TAG_BITS) {stream1 stream2 : List HeapSampler.Arrival}
    (hstream1 : ∀ a ∈ stream1, a.Valid) (hstream2 : ∀ a ∈ stream2, a.Valid)
    (prg : DPFnode → Bool → DPFnode) (coins1 coins2 : Nat → OutputCoins) :
    ∃ size, heapsize k = some size ∧ ∃ s1 outs1,
      (HeapSampler.init k randtag : HeapSampler size).session prg coins1 stream1 =
        some (s1, outs1) ∧
      ((∃ outs s2 fresh, s1.session prg coins2 stream2 = some (s2, outs) ∧
          (HeapSampler.init k s1.randtag : HeapSampler size).session prg coins2 stream2 =
            some (fresh, outs) ∧ outs.length = min k stream2.length) ↔ stream1 = []) := by
  have hlog : Nat.log2 k < 63 := (Nat.log2_lt (by omega)).mpr hk
  have hsize : 2 ^ (Nat.log2 k + 1) ≤ 2 ^ 64 := Nat.pow_le_pow_right Nat.two_pos (by omega)
  refine ⟨_, heapsize_eq hpos hk, ?_⟩
  have hinv := HeapSampler.init_inv hpos Nat.lt_log2_self htag
  obtain ⟨s1, outs1, heq1, hheap, hk1, hm1, -, hnil⟩ :=
    HeapSampler.session_spec rfl hsize hinv hstream1 prg coins1
  refine ⟨s1, outs1, heq1, ?_⟩
  constructor
  · rintro ⟨outs, s2, fresh, hsession, -⟩
    by_contra hne
    have hlen := List.length_pos_of_ne_nil hne
    rw [HeapSampler.session_fails prg coins2
      (HeapSampler.short_of_session hheap (by omega) (by omega))] at hsession
    cases hsession
  · intro hempty
    obtain rfl := hnil hempty
    obtain ⟨s2, outs, heq2, -, -, -, hlen, -⟩ :=
      HeapSampler.session_spec rfl hsize hinv hstream2 prg coins2
    exact ⟨outs, s2, s2, heq2, heq2, hlen⟩

/-- All-zero coins. -/
def OutputCoins.zero : OutputCoins where
  share0 := 0
  seeds _ := 0
  asTarget := 0
  xsTarget := 0
  target := 0
  triple := ⟨fun _ => 0, fun _ => 0, fun _ => 0, rfl⟩

/-- An empty first stream. -/
theorem sampler_reuse_empty : ∃ size, heapsize 2 = some size ∧ ∃ s1 outs1,
    (HeapSampler.init 2 9 : HeapSampler size).session (fun node _ => node) (fun _ => .zero) [] =
        some (s1, outs1) ∧
      ((∃ outs s2 fresh, s1.session (fun node _ => node) (fun _ => .zero) [⟨1, false, 7⟩] =
            some (s2, outs) ∧
          (HeapSampler.init 2 s1.randtag : HeapSampler size).session (fun node _ => node)
            (fun _ => .zero) [⟨1, false, 7⟩] = some (fresh, outs) ∧ outs.length = min 2 1) ↔
        ([] : List HeapSampler.Arrival) = []) :=
  @sampler_reuse_iff 2 (by decide) (by decide) 9 (by decide) [] [⟨1, false, 7⟩] (by simp)
    (by simp [HeapSampler.Arrival.Valid, HEAPSAMPLE_TAG_BITS]) (fun node _ => node) (fun _ => .zero) (fun _ => .zero)

/-- After one arrival the sampler cannot be used again. -/
theorem sampler_not_reusable : ∃ size, heapsize 2 = some size ∧ ∃ s1 outs1,
    (HeapSampler.init 2 9 : HeapSampler size).session (fun node _ => node) (fun _ => .zero)
        [⟨1, false, 7⟩] = some (s1, outs1) ∧
      s1.session (fun node _ => node) (fun _ => .zero) [⟨2, false, 8⟩] = none := by
  have hinv : (HeapSampler.init 2 9 : HeapSampler (2 ^ (Nat.log2 2 + 1))).Inv :=
    HeapSampler.init_inv (by decide) Nat.lt_log2_self (by decide)
  have hstream : ∀ a ∈ [(⟨1, false, 7⟩ : HeapSampler.Arrival)], a.Valid := by
    simp [HeapSampler.Arrival.Valid, HEAPSAMPLE_TAG_BITS]
  obtain ⟨s1, outs1, heq1, hheap, hk1, hm1, -⟩ :=
    HeapSampler.session_spec rfl (by decide) hinv hstream (fun node _ => node) (fun _ => .zero)
  refine ⟨_, heapsize_eq (by decide) (by decide), s1, outs1, heq1, ?_⟩
  exact HeapSampler.session_fails _ _ (HeapSampler.short_of_session hheap (by omega) hm1.ge) _

end Prac
