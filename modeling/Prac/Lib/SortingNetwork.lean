import Mathlib.Algebra.Ring.Nat
import Mathlib.Data.List.Nodup
import Mathlib.Data.Nat.Log
import Mathlib.Logic.Equiv.Basic
import Mathlib.Order.Lattice
import Mathlib.Order.MinMax

/-!
# Sorting networks

* `exchange`, `run` — one comparator, and a network of them, on cells indexed by numbers.
* `Rearranges` — a network moves the contents of a range around in it.
* `run_map`, `run_flip` — a network commutes with monotone maps, and the flipped network with antitone
  ones; from this the zero-one principle, `sortedOn_of_bool`.
* `merger` — the bitonic merger of any length: the first comparators are as far apart as the greatest power
  of two below the length.  `merger_sorts` — it sorts a range whose zeros form an interval.
* `sorter` — the bitonic sorter of any length, and `sorter_sorts`, `sorter_sorts_down`.
-/

namespace SortNet

/-- A comparator: the smaller value goes to the first cell, the larger one to the second. -/
abbrev Comparator := Nat × Nat

variable {α β : Type*} [LinearOrder α] [LinearOrder β]

/-- The cells after a comparator. -/
def exchange (c : Comparator) (f : Nat → α) : Nat → α :=
  Function.update (Function.update f c.1 (min (f c.1) (f c.2))) c.2 (max (f c.1) (f c.2))

/-- The cells after a network. -/
def run (net : List Comparator) (f : Nat → α) : Nat → α :=
  net.foldl (fun f c => exchange c f) f

@[simp] theorem run_nil (f : Nat → α) : run [] f = f := rfl

@[simp] theorem run_cons (c : Comparator) (net : List Comparator) (f : Nat → α) :
    run (c :: net) f = run net (exchange c f) := rfl

@[simp] theorem run_append (net net' : List Comparator) (f : Nat → α) :
    run (net ++ net') f = run net' (run net f) :=
  List.foldl_append

/-! ## Rearrangements -/

/-- The comparators join different cells of the range. -/
def Within (start len : Nat) (net : List Comparator) : Prop :=
  ∀ c ∈ net, c.1 ≠ c.2 ∧ (start ≤ c.1 ∧ c.1 < start + len) ∧ start ≤ c.2 ∧ c.2 < start + len

/-- The contents of the range are moved around in it, and nothing else changes. -/
def Rearranges {γ : Type*} (start len : Nat) (f f' : Nat → γ) : Prop :=
  ∃ σ : Equiv.Perm Nat, (∀ k, ¬ (start ≤ k ∧ k < start + len) → σ k = k) ∧ f' = f ∘ σ

namespace Rearranges

variable {γ : Type*} {start len : Nat} {f f' f'' : Nat → γ}

theorem refl : Rearranges start len f f := ⟨Equiv.refl Nat, fun _ _ => rfl, rfl⟩

theorem trans (h : Rearranges start len f f') (h' : Rearranges start len f' f'') :
    Rearranges start len f f'' := by
  obtain ⟨σ, hσ, rfl⟩ := h
  obtain ⟨τ, hτ, rfl⟩ := h'
  refine ⟨τ.trans σ, fun k hk => ?_, rfl⟩
  rw [Equiv.trans_apply, hτ k hk, hσ k hk]

theorem outside (h : Rearranges start len f f') {k : Nat} (hk : ¬ (start ≤ k ∧ k < start + len)) :
    f' k = f k := by
  obtain ⟨σ, hσ, rfl⟩ := h
  rw [Function.comp_apply, hσ k hk]

/-- A permutation that fixes what is outside of a range permutes the range. -/
theorem apply_mem_iff {σ : Equiv.Perm Nat}
    (hσ : ∀ k, ¬ (start ≤ k ∧ k < start + len) → σ k = k) (k : Nat) :
    (start ≤ σ k ∧ σ k < start + len) ↔ start ≤ k ∧ k < start + len := by
  by_cases hk : start ≤ k ∧ k < start + len
  · refine ⟨fun _ => hk, fun _ => ?_⟩
    by_contra hout
    exact hout ((σ.injective (hσ _ hout)).symm ▸ hk)
  · rw [hσ k hk]

/-- Every new value of the range is an old one. -/
theorem exists_eq (h : Rearranges start len f f') {k : Nat} (hk : start ≤ k ∧ k < start + len) :
    ∃ j, (start ≤ j ∧ j < start + len) ∧ f' k = f j := by
  obtain ⟨σ, hσ, rfl⟩ := h
  exact ⟨σ k, (apply_mem_iff hσ k).2 hk, rfl⟩

theorem perm (h : Rearranges start len f f') :
    ((List.range' start len).map f').Perm ((List.range' start len).map f) := by
  obtain ⟨σ, hσ, rfl⟩ := h
  have hrange : ((List.range' start len).map σ).Perm (List.range' start len) := by
    refine (List.perm_ext_iff_of_nodup (List.Nodup.map σ.injective List.nodup_range')
      List.nodup_range').2 fun k => ?_
    rw [List.mem_map, List.mem_range'_1]
    constructor
    · rintro ⟨j, hj, rfl⟩
      exact (apply_mem_iff hσ j).2 (List.mem_range'_1.1 hj)
    · intro hk
      refine ⟨σ.symm k, List.mem_range'_1.2 ((apply_mem_iff hσ _).1 ?_), σ.apply_symm_apply k⟩
      rwa [σ.apply_symm_apply]
  rw [← List.map_map]
  exact hrange.map f

end Rearranges

/-- A comparator leaves its two cells as they are, or swaps them. -/
theorem exchange_eq (c : Comparator) (f : Nat → α) :
    exchange c f = f ∨ exchange c f = f ∘ Equiv.swap c.1 c.2 := by
  rcases le_total (f c.1) (f c.2) with hle | hle
  · left
    rw [exchange, min_eq_left hle, max_eq_right hle, Function.update_eq_self,
      Function.update_eq_self]
  · right
    funext k
    rw [exchange, min_eq_right hle, max_eq_left hle, Function.comp_apply]
    rcases eq_or_ne k c.2 with rfl | hk2
    · rw [Function.update_self, Equiv.swap_apply_right]
    · rw [Function.update_of_ne hk2]
      rcases eq_or_ne k c.1 with rfl | hk1
      · rw [Function.update_self, Equiv.swap_apply_left]
      · rw [Function.update_of_ne hk1, Equiv.swap_apply_of_ne_of_ne hk1 hk2]

theorem run_rearranges {start len : Nat} {net : List Comparator} (h : Within start len net)
    (f : Nat → α) : Rearranges start len f (run net f) := by
  induction net generalizing f with
  | nil => exact .refl
  | cons c net ih =>
    obtain ⟨-, hc1, hc2⟩ := h c List.mem_cons_self
    have hrest := ih (fun c' hc' => h c' (List.mem_cons_of_mem c hc')) (exchange c f)
    refine Rearranges.trans ?_ hrest
    rcases exchange_eq c f with heq | heq
    · rw [heq]
      exact .refl
    · refine ⟨Equiv.swap c.1 c.2, fun k hk => ?_, heq⟩
      exact Equiv.swap_apply_of_ne_of_ne (fun hk1 => hk (hk1 ▸ hc1)) fun hk2 => hk (hk2 ▸ hc2)

/-! ## Monotone and antitone maps -/

/-- The network that sorts the other way. -/
def flip (net : List Comparator) : List Comparator := net.map Prod.swap

theorem run_map {g : α → β} (hg : Monotone g) (net : List Comparator) (f : Nat → α) :
    run net (g ∘ f) = g ∘ run net f := by
  induction net generalizing f with
  | nil => rfl
  | cons c net ih =>
    have hstep : exchange c (g ∘ f) = g ∘ exchange c f := by
      rw [exchange, exchange, Function.comp_update, Function.comp_update, hg.map_min, hg.map_max]
      rfl
    rw [run_cons, run_cons, hstep, ih]

theorem run_flip {g : α → β} (hg : Antitone g) {start len : Nat} {net : List Comparator}
    (h : Within start len net) (f : Nat → α) : run (flip net) (g ∘ f) = g ∘ run net f := by
  induction net generalizing f with
  | nil => rfl
  | cons c net ih =>
    have hstep : exchange c.swap (g ∘ f) = g ∘ exchange c f := by
      obtain ⟨hne, -⟩ := h c List.mem_cons_self
      rw [exchange, exchange, Function.comp_update, Function.comp_update, hg.map_min, hg.map_max,
        Prod.fst_swap, Prod.snd_swap, Function.update_comm hne, Function.comp_apply,
        Function.comp_apply, min_comm, max_comm]
    rw [flip, List.map_cons, run_cons, run_cons, hstep]
    exact ih (fun c' hc' => h c' (List.mem_cons_of_mem c hc')) _

/-! ## The zero-one principle -/

/-- The range is sorted upwards. -/
def SortedOn {γ : Type*} [LE γ] (start len : Nat) (f : Nat → γ) : Prop :=
  ∀ i j, start ≤ i → i ≤ j → j < start + len → f i ≤ f j

/-- **The zero-one principle**: a network that sorts zeros and ones sorts everything. -/
theorem sortedOn_of_bool {start len : Nat} {net : List Comparator}
    (h : ∀ f : Nat → Bool, SortedOn start len (run net f)) (f : Nat → α) :
    SortedOn start len (run net f) := by
  intro i j hi hij hj
  by_contra hlt
  let g : α → Bool := fun a => decide (run net f i ≤ a)
  have hg : Monotone g := fun a b hab => by
    simp only [g, Bool.le_iff_imp, decide_eq_true_eq]
    exact fun ha => ha.trans hab
  have hbool := h (g ∘ f) i j hi hij hj
  rw [run_map hg] at hbool
  have htrue : g (run net f i) = true := decide_eq_true (le_refl _)
  have hfalse : g (run net f j) = false := decide_eq_false hlt
  rw [Function.comp_apply, Function.comp_apply, htrue, hfalse] at hbool
  exact absurd hbool (by decide)

theorem SortedOn.append {γ : Type*} [Preorder γ] {start m n : Nat} {f : Nat → γ} (hm : m ≤ n)
    (hleft : SortedOn start m f) (hright : SortedOn (start + m) (n - m) f)
    (hcross : ∀ i j, start ≤ i → i < start + m → start + m ≤ j → j < start + n → f i ≤ f j) :
    SortedOn start n f := by
  intro i j hi hij hj
  by_cases hj' : j < start + m
  · exact hleft i j hi hij hj'
  · by_cases hi' : i < start + m
    · exact hcross i j hi hi' (Nat.le_of_not_lt hj') hj
    · exact hright i j (Nat.le_of_not_lt hi') hij (by omega)

/-! ## The bitonic merger -/

/-- The comparator of two cells, upwards or downwards. -/
def ordered (down : Bool) (i j : Nat) : Comparator := if down then (j, i) else (i, j)

/-- `k` comparators between cells that are `m` apart. -/
def halver (down : Bool) (start m k : Nat) : List Comparator :=
  (List.range k).map fun i => ordered down (start + i) (start + i + m)

/-- The greatest power of two below a length. -/
def lower (len : Nat) : Nat := 2 ^ Nat.log 2 (len - 1)

theorem lower_pos (len : Nat) : 0 < lower len := Nat.two_pow_pos _

theorem lower_lt {len : Nat} (h : 2 ≤ len) : lower len < len := by
  have hle : lower len ≤ len - 1 := Nat.pow_log_le_self 2 (by omega)
  omega

theorem le_two_mul_lower (len : Nat) : len ≤ 2 * lower len := by
  have hlt := Nat.lt_pow_succ_log_self Nat.one_lt_two (len - 1)
  rw [Nat.pow_succ, Nat.mul_comm] at hlt
  rw [lower]
  omega

/-- It is the power of two that is below the length, and not below its half. -/
theorem lower_eq {len k : Nat} (hlt : 2 ^ k < len) (hle : len ≤ 2 * 2 ^ k) : lower len = 2 ^ k := by
  rw [lower, (Nat.log_eq_iff (.inr ⟨Nat.one_lt_two, by omega⟩)).2]
  rw [Nat.pow_succ]
  omega

/-- The bitonic merger. -/
def merger (down : Bool) (start len : Nat) : List Comparator :=
  if len < 2 then []
  else
    halver down start (lower len) (len - lower len) ++
      (merger down start (lower len) ++ merger down (start + lower len) (len - lower len))
termination_by len
decreasing_by
  · exact lower_lt (by omega)
  · exact Nat.sub_lt (by omega) (lower_pos len)

theorem merger_short {len : Nat} (h : len < 2) (down : Bool) (start : Nat) :
    merger down start len = [] := by
  rw [merger, if_pos h]

theorem merger_eq {len : Nat} (h : 2 ≤ len) (down : Bool) (start : Nat) :
    merger down start len = halver down start (lower len) (len - lower len) ++
      (merger down start (lower len) ++ merger down (start + lower len) (len - lower len)) := by
  rw [merger, if_neg (Nat.not_lt.2 h)]

/-- The bitonic sorter: the first half is sorted the other way. -/
def sorter (down : Bool) (start len : Nat) : List Comparator :=
  if len < 2 then []
  else
    sorter (!down) start ((len + 1) / 2) ++ (sorter down (start + (len + 1) / 2) (len / 2) ++
      merger down start len)
termination_by len

theorem sorter_short {len : Nat} (h : len < 2) (down : Bool) (start : Nat) :
    sorter down start len = [] := by
  rw [sorter, if_pos h]

theorem sorter_eq {len : Nat} (h : 2 ≤ len) (down : Bool) (start : Nat) :
    sorter down start len = sorter (!down) start ((len + 1) / 2) ++
      (sorter down (start + (len + 1) / 2) (len / 2) ++ merger down start len) := by
  rw [sorter, if_neg (Nat.not_lt.2 h)]

/-! ### Where the comparators are -/

theorem Within.append {start len : Nat} {net net' : List Comparator} (h : Within start len net)
    (h' : Within start len net') : Within start len (net ++ net') :=
  fun c hc => (List.mem_append.1 hc).elim (h c) (h' c)

theorem Within.mono {start len start' len' : Nat} {net : List Comparator} (h : Within start' len' net)
    (hlo : start ≤ start') (hhi : start' + len' ≤ start + len) : Within start len net := by
  intro c hc
  obtain ⟨hne, hfirst, hsecond⟩ := h c hc
  exact ⟨hne, ⟨by omega, by omega⟩, by omega, by omega⟩

theorem halver_within (down : Bool) {start m k len : Nat} (hm : 0 < m) (hk : k + m ≤ len) :
    Within start len (halver down start m k) := by
  intro c hc
  obtain ⟨i, hi, rfl⟩ := List.mem_map.1 hc
  have hi := List.mem_range.1 hi
  have hne : start + i ≠ start + i + m := by omega
  have hlow : start ≤ start + i ∧ start + i < start + len := by omega
  have hhigh : start ≤ start + i + m ∧ start + i + m < start + len := by omega
  cases down
  · exact ⟨hne, hlow, hhigh⟩
  · exact ⟨hne.symm, hhigh, hlow⟩

theorem merger_within (down : Bool) (start len : Nat) : Within start len (merger down start len) := by
  induction len using Nat.strong_induction_on generalizing start with
  | h len ih =>
    by_cases h : len < 2
    · rw [merger_short h]
      exact nofun
    · have h := Nat.le_of_not_lt h
      have hlt := lower_lt h
      have hpos := lower_pos len
      rw [merger_eq h]
      refine (halver_within down hpos (by omega)).append (Within.append ?_ ?_)
      · exact (ih _ hlt start).mono (le_refl _) (by omega)
      · exact (ih _ (by omega) (start + lower len)).mono (by omega) (by omega)

theorem sorter_within (down : Bool) (start len : Nat) : Within start len (sorter down start len) := by
  induction len using Nat.strong_induction_on generalizing start down with
  | h len ih =>
    by_cases h : len < 2
    · rw [sorter_short h]
      exact nofun
    · rw [sorter_eq (Nat.le_of_not_lt h)]
      refine Within.append ?_ (Within.append ?_ (merger_within down start len))
      · exact (ih _ (by omega) _ start).mono (le_refl _) (by omega)
      · exact (ih _ (by omega) _ _).mono (by omega) (by omega)

/-! ### The first comparators of the merger -/

/-- What the first comparators leave in each cell. -/
theorem run_halver (start : Nat) {m k : Nat} (hk : k ≤ m) (f : Nat → α) (i : Nat) :
    run (halver false start m k) f i =
      if start ≤ i ∧ i < start + k then min (f i) (f (i + m))
      else if start + m ≤ i ∧ i < start + m + k then max (f (i - m)) (f i) else f i := by
  induction k generalizing i with
  | zero =>
    rw [if_neg (by omega), if_neg (by omega)]
    rfl
  | succ k ih =>
    have ih := ih (by omega)
    have hsplit : halver false start m (k + 1) =
        halver false start m k ++ [(start + k, start + k + m)] := by
      rw [halver, List.range_succ, List.map_append]
      rfl
    have hlow : run (halver false start m k) f (start + k) = f (start + k) := by
      rw [ih, if_neg (by omega), if_neg (by omega)]
    have hhigh : run (halver false start m k) f (start + k + m) = f (start + k + m) := by
      rw [ih, if_neg (by omega), if_neg (by omega)]
    rw [hsplit, run_append, run_cons, run_nil, exchange, hlow, hhigh]
    rcases eq_or_ne i (start + k + m) with rfl | hi
    · rw [Function.update_self, if_neg (by omega), if_pos (by omega), Nat.add_sub_cancel]
    · rw [Function.update_of_ne hi]
      rcases eq_or_ne i (start + k) with rfl | hi'
      · rw [Function.update_self, if_pos (by omega)]
      · rw [Function.update_of_ne hi', ih]
        congr 1
        · rw [eq_iff_iff]
          omega
        · congr 1
          rw [eq_iff_iff]
          omega

/-- The cells of a range that hold `b` form an interval. -/
def HasBlock (b : Bool) (start len : Nat) (f : Nat → Bool) : Prop :=
  ∃ p q, start ≤ p ∧ q ≤ start + len ∧ ∀ i, start ≤ i → i < start + len → (f i = b ↔ p ≤ i ∧ i < q)

/-- The zeros of the range form an interval, or the ones do. -/
def Bitonic (start len : Nat) (f : Nat → Bool) : Prop := ∃ b, HasBlock b start len f

theorem HasBlock.congr {b : Bool} {start len : Nat} {f f' : Nat → Bool} (h : HasBlock b start len f)
    (heq : ∀ i, start ≤ i → i < start + len → f' i = f i) : HasBlock b start len f' := by
  obtain ⟨p, q, hp, hq, hblock⟩ := h
  exact ⟨p, q, hp, hq, fun i hi hi' => by rw [heq i hi hi', hblock i hi hi']⟩

/-- What the first comparators make of zeros and ones: both halves are bitonic again, and the left
half has only zeros or the right half only ones. -/
structure Cleaned (start m n : Nat) (f : Nat → Bool) : Prop where
  left : Bitonic start m f
  split : (∀ i, start ≤ i → i < start + m → f i = false) ∨
    ∀ i, start + m ≤ i → i < start + n → f i = true

/-- The left half has only zeros. -/
theorem Cleaned.ofZeros {start m n : Nat} {f : Nat → Bool}
    (h : ∀ i, start ≤ i → i < start + m → f i = false) : Cleaned start m n f :=
  ⟨⟨false, start, start + m, le_refl _, le_refl _, fun i hi hi' => iff_of_true (h i hi hi') ⟨hi, hi'⟩⟩,
    .inl h⟩

theorem min_eq_false (a b : Bool) : min a b = false ↔ a = false ∨ b = false := by
  cases a <;> cases b <;> decide

theorem max_eq_false (a b : Bool) : max a b = false ↔ a = false ∧ b = false := by
  cases a <;> cases b <;> decide

section Halver

variable {start m n p q : Nat} {b : Bool} {f : Nat → Bool}

/-- Where the zeros of the left half come from. -/
theorem halver_left (hm : m < n) (hn : n ≤ 2 * m) {i : Nat} (hi : start ≤ i) (hi' : i < start + m) :
    run (halver false start m (n - m)) f i = false ↔
      f i = false ∨ (i + m < start + n ∧ f (i + m) = false) := by
  rw [run_halver start (by omega)]
  by_cases hpair : i < start + (n - m)
  · rw [if_pos ⟨hi, hpair⟩, min_eq_false, and_iff_right (by omega)]
  · rw [if_neg (by omega), if_neg (by omega), or_iff_left (by omega)]

/-- Where the zeros of the right half come from. -/
theorem halver_right (hm : m < n) (hn : n ≤ 2 * m) {i : Nat} (hi : start + m ≤ i)
    (hi' : i < start + n) :
    run (halver false start m (n - m)) f i = false ↔ f (i - m) = false ∧ f i = false := by
  rw [run_halver start (by omega), if_neg (by omega), if_pos (by omega), max_eq_false]

/-- The zeros form an interval: so they do in the right half. -/
theorem halver_zeros (hm : m < n) (hn : n ≤ 2 * m) (h : HasBlock false start n f) :
    Cleaned start m n (run (halver false start m (n - m)) f) ∧
      HasBlock false (start + m) (n - m) (run (halver false start m (n - m)) f) := by
  obtain ⟨p, q, hp, hq, hblock⟩ := h
  have hleft : ∀ i, start ≤ i → i < start + m →
      (run (halver false start m (n - m)) f i = false ↔ (p ≤ i ∧ i < q) ∨ (p ≤ i + m ∧ i + m < q)) := by
    intro i hi hi'
    rw [halver_left hm hn hi hi', hblock i hi (by omega)]
    refine or_congr_right ⟨fun hz => (hblock _ (by omega) hz.1).1 hz.2, fun hz => ?_⟩
    exact ⟨by omega, (hblock _ (by omega) (by omega)).2 hz⟩
  have hright : ∀ i, start + m ≤ i → i < start + n →
      (run (halver false start m (n - m)) f i = false ↔ p + m ≤ i ∧ i < q) := by
    intro i hi hi'
    rw [halver_right hm hn hi hi', hblock i (by omega) hi', hblock (i - m) (by omega) (by omega)]
    omega
  refine ⟨?_, p + m, q, by omega, by omega, fun i hi hi' => hright i hi (by omega)⟩
  rcases Nat.lt_or_ge (start + m) q with hq' | hq'
  · rcases Nat.lt_or_ge p (start + m) with hp' | hp'
    · rcases Nat.lt_or_ge (q - m) p with hgap | hgap
      · -- the interval wraps around: its complement is one in the left half
        refine ⟨⟨true, q - m, p, by omega, by omega, fun i hi hi' => ?_⟩, .inr fun i hi hi' => ?_⟩
        · rw [← Bool.not_eq_false, hleft i hi hi']
          omega
        · rw [← Bool.not_eq_false, hright i hi hi']
          omega
      · refine .ofZeros fun i hi hi' => ?_
        rw [hleft i hi hi']
        omega
    · refine ⟨⟨false, p - m, q - m, by omega, by omega, fun i hi hi' => ?_⟩, .inr fun i hi hi' => ?_⟩
      · rw [hleft i hi hi']
        omega
      · rw [← Bool.not_eq_false, hright i hi hi']
        omega
  · refine ⟨⟨false, p, q, hp, hq', fun i hi hi' => ?_⟩, .inr fun i hi hi' => ?_⟩
    · rw [hleft i hi hi']
      omega
    · rw [← Bool.not_eq_false, hright i hi hi']
      omega

/-- The ones form an interval, in a range of even length. -/
theorem halver_ones (hm : 0 < m) (h : HasBlock true start (2 * m) f) :
    Cleaned start m (2 * m) (run (halver false start m (2 * m - m)) f) ∧
      Bitonic (start + m) m (run (halver false start m (2 * m - m)) f) := by
  obtain ⟨p, q, hp, hq, hblock⟩ := h
  have hblock' : ∀ i, start ≤ i → i < start + 2 * m → (f i = false ↔ ¬ (p ≤ i ∧ i < q)) := by
    intro i hi hi'
    rw [← hblock i hi hi', Bool.not_eq_true]
  have hleft : ∀ i, start ≤ i → i < start + m →
      (run (halver false start m (2 * m - m)) f i = false ↔ ¬ (p ≤ i ∧ i + m < q)) := by
    intro i hi hi'
    rw [halver_left (by omega) (le_refl _) hi hi', and_iff_right (by omega), hblock' i hi (by omega),
      hblock' (i + m) (by omega) (by omega)]
    omega
  have hright : ∀ i, start + m ≤ i → i < start + 2 * m →
      (run (halver false start m (2 * m - m)) f i = false ↔
        ¬ (p ≤ i - m ∧ i - m < q) ∧ ¬ (p ≤ i ∧ i < q)) := by
    intro i hi hi'
    rw [halver_right (by omega) (le_refl _) hi hi', hblock' i (by omega) hi',
      hblock' (i - m) (by omega) (by omega)]
  rcases Nat.lt_or_ge p (start + m) with hp' | hp'
  · rcases Nat.lt_or_ge (start + m) q with hq' | hq'
    · rcases Nat.lt_or_ge q (p + m) with hgap | hgap
      · refine ⟨.ofZeros fun i hi hi' => ?_, false, q, p + m, by omega, by omega, fun i hi hi' => ?_⟩
        · rw [hleft i hi hi']
          omega
        · rw [hright i hi (by omega)]
          omega
      · have hall : ∀ i, start + m ≤ i → i < start + 2 * m →
            run (halver false start m (2 * m - m)) f i = true := by
          intro i hi hi'
          rw [← Bool.not_eq_false, hright i hi hi']
          omega
        refine ⟨⟨⟨true, p, q - m, by omega, by omega, fun i hi hi' => ?_⟩, .inr hall⟩, true, start + m,
          start + m + m, le_refl _, le_refl _, fun i hi hi' => ?_⟩
        · rw [← Bool.not_eq_false, hleft i hi hi']
          omega
        · exact iff_of_true (hall i hi (by omega)) ⟨hi, hi'⟩
    · refine ⟨.ofZeros fun i hi hi' => ?_, true, p + m, q + m, by omega, by omega, fun i hi hi' => ?_⟩
      · rw [hleft i hi hi']
        omega
      · rw [← Bool.not_eq_false, hright i hi (by omega)]
        omega
  · refine ⟨.ofZeros fun i hi hi' => ?_, true, p, q, by omega, by omega, fun i hi hi' => ?_⟩
    · rw [hleft i hi hi']
      omega
    · rw [← Bool.not_eq_false, hright i hi (by omega)]
      omega

end Halver

/-! ### The merger sorts -/

theorem SortedOn.congr {γ : Type*} [LE γ] {start len : Nat} {f f' : Nat → γ} (h : SortedOn start len f)
    (heq : ∀ i, start ≤ i → i < start + len → f' i = f i) : SortedOn start len f' := by
  intro i j hi hij hj
  rw [heq i hi (by omega), heq j (by omega) hj]
  exact h i j hi hij hj

section Merger

variable {start n : Nat} {f : Nat → Bool}

/-- The right half of the cells, once the left half is merged. -/
theorem merged_right {m : Nat} {i : Nat} (hi : start + m ≤ i) (g : Nat → Bool) :
    run (merger false start m) g i = g i :=
  (run_rearranges (merger_within false start m) g).outside (by omega)

/-- After the first comparators it is enough that both halves are sorted. -/
theorem merger_step (hn : 2 ≤ n) {g : Nat → Bool}
    (hg : g = run (halver false start (lower n) (n - lower n)) f) (hclean : Cleaned start (lower n) n g)
    (hleft : SortedOn start (lower n) (run (merger false start (lower n)) g))
    (hright : SortedOn (start + lower n) (n - lower n) (run (merger false (start + lower n) (n - lower n))
      (run (merger false start (lower n)) g))) :
    SortedOn start n (run (merger false start n) f) := by
  have hm := lower_lt hn
  rw [merger_eq hn, run_append, run_append, ← hg]
  obtain ⟨g₁, hg₁⟩ : ∃ g₁, g₁ = run (merger false start (lower n)) g := ⟨_, rfl⟩
  obtain ⟨g₂, hg₂⟩ : ∃ g₂, g₂ = run (merger false (start + lower n) (n - lower n)) g₁ := ⟨_, rfl⟩
  have hmoved₁ : Rearranges start (lower n) g g₁ := hg₁ ▸ run_rearranges (merger_within _ _ _) g
  have hmoved₂ : Rearranges (start + lower n) (n - lower n) g₁ g₂ :=
    hg₂ ▸ run_rearranges (merger_within _ _ _) g₁
  rw [← hg₁] at hleft hright ⊢
  rw [← hg₂] at hright ⊢
  have hkept : ∀ i, start ≤ i → i < start + lower n → g₂ i = g₁ i := fun i _ hi =>
    hmoved₂.outside (by omega)
  refine (hleft.congr hkept).append hm.le hright fun i j hi hi' hj hj' => ?_
  rcases hclean.split with hzeros | hones
  · obtain ⟨i₀, hi₀, heq⟩ := hmoved₁.exists_eq ⟨hi, hi'⟩
    rw [hkept i hi hi', heq, hzeros i₀ hi₀.1 hi₀.2]
    exact Bool.false_le _
  · obtain ⟨j₀, hj₀, heq⟩ := hmoved₂.exists_eq (k := j) ⟨hj, by omega⟩
    have hold : g₁ j₀ = g j₀ := hmoved₁.outside (by omega)
    rw [heq, hold, hones j₀ hj₀.1 (by omega)]
    exact Bool.le_true _

/-- In a range whose length is a power of two, zeros or ones in an interval are enough. -/
theorem merger_sorts_pow (k : Nat) (h : Bitonic start (2 ^ k) f) :
    SortedOn start (2 ^ k) (run (merger false start (2 ^ k)) f) := by
  induction k generalizing start f with
  | zero =>
    intro i j hi hij hj
    obtain rfl : i = j := by omega
    exact le_refl _
  | succ k ih =>
    have hpos : 0 < 2 ^ k := Nat.two_pow_pos k
    have hdouble : 2 ^ (k + 1) = 2 * 2 ^ k := Nat.pow_succ'
    have hlower : lower (2 ^ (k + 1)) = 2 ^ k := lower_eq (by omega) hdouble.le
    have hhalf : 2 ^ (k + 1) - 2 ^ k = 2 ^ k := by omega
    obtain ⟨g, hg⟩ : ∃ g, g = run (halver false start (2 ^ k) (2 ^ (k + 1) - 2 ^ k)) f := ⟨_, rfl⟩
    have hboth : Cleaned start (2 ^ k) (2 ^ (k + 1)) g ∧ Bitonic (start + 2 ^ k) (2 ^ k) g := by
      obtain ⟨b, hblock⟩ := h
      cases b with
      | false =>
        have hz := halver_zeros (show 2 ^ k < 2 ^ (k + 1) by omega) hdouble.le hblock
        rw [← hg, hhalf] at hz
        exact ⟨hz.1, false, hz.2⟩
      | true =>
        rw [hdouble] at hblock
        have hz := halver_ones hpos hblock
        rw [← hdouble, ← hg] at hz
        exact hz
    obtain ⟨b, hright⟩ := hboth.2
    refine merger_step (by omega) (hlower ▸ hg) (hlower ▸ hboth.1) ?_ ?_
    · rw [hlower]
      exact ih hboth.1.left
    · rw [hlower, hhalf]
      exact ih ⟨b, hright.congr fun i hi _ => merged_right hi g⟩

/-- The merger sorts a range of any length in which the zeros form an interval. -/
theorem merger_sorts (h : HasBlock false start n f) :
    SortedOn start n (run (merger false start n) f) := by
  induction n using Nat.strong_induction_on generalizing start f with
  | h n ih =>
    by_cases hn : n < 2
    · intro i j hi hij hj
      obtain rfl : i = j := by omega
      exact le_refl _
    · have hn := Nat.le_of_not_lt hn
      have hm := lower_lt hn
      have hpos := lower_pos n
      obtain ⟨hclean, hright⟩ := halver_zeros hm (le_two_mul_lower n) h
      refine merger_step hn rfl hclean ?_ ?_
      · exact merger_sorts_pow (Nat.log 2 (n - 1)) hclean.left
      · exact ih _ (by omega) (hright.congr fun i hi _ => merged_right hi _)

end Merger

/-! ## The bitonic sorter -/

theorem flip_append (net net' : List Comparator) : flip (net ++ net') = flip net ++ flip net' :=
  List.map_append

theorem flip_halver (down : Bool) (start m k : Nat) :
    flip (halver down start m k) = halver (!down) start m k := by
  rw [flip, halver, halver, List.map_map]
  cases down <;> rfl

theorem flip_merger (down : Bool) (start len : Nat) :
    flip (merger down start len) = merger (!down) start len := by
  induction len using Nat.strong_induction_on generalizing start with
  | h len ih =>
    by_cases h : len < 2
    · rw [merger_short h, merger_short h]
      rfl
    · have h := Nat.le_of_not_lt h
      have hpos := lower_pos len
      rw [merger_eq h, merger_eq h, flip_append, flip_append, flip_halver, ih _ (lower_lt h),
        ih _ (by omega)]

theorem flip_sorter (down : Bool) (start len : Nat) :
    flip (sorter down start len) = sorter (!down) start len := by
  induction len using Nat.strong_induction_on generalizing start down with
  | h len ih =>
    by_cases h : len < 2
    · rw [sorter_short h, sorter_short h]
      rfl
    · have h := Nat.le_of_not_lt h
      rw [sorter_eq h, sorter_eq h, flip_append, flip_append, flip_merger, ih _ (by omega),
        ih _ (by omega)]

/-- The network that sorts downwards, as the one that sorts upwards in the dual order. -/
theorem run_sorter_true (start len : Nat) (f : Nat → α) :
    run (sorter true start len) f =
      OrderDual.ofDual ∘ run (sorter false start len) (OrderDual.toDual ∘ f) := by
  have hanti : Antitone (OrderDual.ofDual : αᵒᵈ → α) := fun _ _ h => h
  rw [← run_flip hanti (sorter_within false start len), flip_sorter]
  rfl

/-- Sorted zeros and ones change once. -/
theorem SortedOn.exists_first {start len : Nat} {f : Nat → Bool} (h : SortedOn start len f) :
    ∃ t, start ≤ t ∧ t ≤ start + len ∧ ∀ i, start ≤ i → i < start + len → (f i = true ↔ t ≤ i) := by
  induction len with
  | zero => exact ⟨start, le_refl _, le_refl _, fun i hi hi' => by omega⟩
  | succ len ih =>
    obtain ⟨t, hlo, hhi, ht⟩ := ih fun i j hi hij hj => h i j hi hij (by omega)
    have hlast : ∀ i, start ≤ i → i < start + (len + 1) → i < start + len ∨ i = start + len := by
      omega
    cases hf : f (start + len) with
    | true =>
      refine ⟨t, hlo, by omega, fun i hi hi' => ?_⟩
      rcases hlast i hi hi' with hlt | rfl
      · exact ht i hi hlt
      · exact iff_of_true hf hhi
    | false =>
      refine ⟨start + len + 1, by omega, by omega, fun i hi hi' => ?_⟩
      have hle := h i (start + len) hi (by omega) (by omega)
      rw [hf, Bool.le_iff_imp] at hle
      exact iff_of_false (fun htrue => Bool.false_ne_true (hle htrue)) (by omega)

theorem sorter_sorts_bool (start len : Nat) (f : Nat → Bool) :
    SortedOn start len (run (sorter false start len) f) := by
  induction len using Nat.strong_induction_on generalizing start f with
  | h len ih =>
    by_cases hlen : len < 2
    · intro i j hi hij hj
      obtain rfl : i = j := by omega
      exact le_refl _
    · rw [sorter_eq (Nat.le_of_not_lt hlen), run_append, run_append]
      refine merger_sorts ?_
      obtain ⟨l, hl⟩ : ∃ l, l = (len + 1) / 2 := ⟨_, rfl⟩
      obtain ⟨r, hr⟩ : ∃ r, r = len / 2 := ⟨_, rfl⟩
      rw [← hl, ← hr]
      obtain ⟨f₁, hf₁⟩ : ∃ f₁, f₁ = run (sorter (!false) start l) f := ⟨_, rfl⟩
      rw [← hf₁]
      -- the first half is sorted downwards: its complement is sorted upwards
      have hanti : Antitone (fun b : Bool => !b) := fun a b hab => by
        cases a <;> cases b <;> first | exact le_refl _ | exact Bool.false_le _ | exact absurd hab (by decide)
      have hdown : f₁ = (fun b => !b) ∘ run (sorter false start l) (fun i => !f i) := by
        have hflip := run_flip hanti (sorter_within false start l) (fun i => !f i)
        rw [flip_sorter] at hflip
        rw [← hflip, hf₁]
        congr 1
        funext i
        exact (Bool.not_not _).symm
      obtain ⟨t₁, hlo₁, hhi₁, ht₁⟩ := (ih l (by omega) start fun i => !f i).exists_first
      obtain ⟨t₂, hlo₂, hhi₂, ht₂⟩ := (ih r (by omega) (start + l) f₁).exists_first
      refine ⟨t₁, t₂, hlo₁, by omega, fun i hi hi' => ?_⟩
      by_cases hleft : i < start + l
      · have hkept : run (sorter false (start + l) r) f₁ i = f₁ i :=
          (run_rearranges (sorter_within false (start + l) r) f₁).outside (by omega)
        rw [hkept, hdown, Function.comp_apply, Bool.not_eq_false', ht₁ i hi hleft]
        omega
      · rw [← Bool.not_eq_true, ht₂ i (by omega) (by omega)]
        omega

/-- **The bitonic sorter** sorts a range of any length. -/
theorem sorter_sorts (start len : Nat) (f : Nat → α) :
    SortedOn start len (run (sorter false start len) f) :=
  sortedOn_of_bool (sorter_sorts_bool start len) f

theorem sorter_sorts_down (start len : Nat) (f : Nat → α) (i j : Nat) (hi : start ≤ i) (hij : i ≤ j)
    (hj : j < start + len) :
    run (sorter true start len) f j ≤ run (sorter true start len) f i := by
  rw [run_sorter_true]
  exact sorter_sorts start len (OrderDual.toDual ∘ f) i j hi hij hj

end SortNet
