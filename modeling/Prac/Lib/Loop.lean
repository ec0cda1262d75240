import Mathlib.Data.List.Range
import Mathlib.Tactic.Ring

/-!
# Counted loops

* `forRange` — `for (i = start; i < stop; ++i)` as a fold, with the loop-invariant rule
  `forRange_inv`, the rules for several runs `forRange_rel` and `forRange_family`, and the last-write
  rule `forRange_overwrite`.
* `forRangeOpt` — the same loop with a body that may fail, with the total-correctness rule
  `forRangeOpt_inv`; `forRangeOpt_eq_forRange` if it never does.
* `forChunks` — a range split into consecutive chunks, the first `n % k` one longer, as a pool
  of `k` threads processes it; `forChunks_inv` makes the split invisible to an invariant, and
  `forChunks_eq_forRange` to the result.
-/

namespace Loop

variable {σ : Type*}

/-- `for (i = start; i < stop; ++i) s = body(i, s)`. -/
def forRange (start stop : Nat) (body : Nat → σ → σ) (s : σ) : σ :=
  (List.range' start (stop - start)).foldl (fun s i => body i s) s

/-- The counted loop with a body that may fail. -/
def forRangeOpt (start stop : Nat) (body : Nat → σ → Option σ) (s : σ) : Option σ :=
  (List.range' start (stop - start)).foldlM (fun s i => body i s) s

@[simp] theorem forRange_self (a : Nat) (body : Nat → σ → σ) (s : σ) : forRange a a body s = s := by
  simp [forRange]

theorem forRange_succ {a b : Nat} (hab : a ≤ b) (body : Nat → σ → σ) (s : σ) :
    forRange a (b + 1) body s = body b (forRange a b body s) := by
  have hlen : b + 1 - a = (b - a) + 1 := by omega
  have hlast : a + (b - a) = b := by omega
  simp only [forRange, hlen, List.range'_concat, List.foldl_append, List.foldl_cons,
    List.foldl_nil, one_mul, hlast]

/-- A loop run in two parts. -/
theorem forRange_append {a b c : Nat} (hab : a ≤ b) (hbc : b ≤ c) (body : Nat → σ → σ) (s : σ) :
    forRange b c body (forRange a b body s) = forRange a c body s := by
  induction c, hbc using Nat.le_induction with
  | base => rw [forRange_self]
  | succ c hbc ih => rw [forRange_succ hbc, forRange_succ (hab.trans hbc), ih]

/-- Loop rule: an invariant indexed by the counter. -/
theorem forRange_inv {body : Nat → σ → σ} {s : σ} {a b : Nat} (P : Nat → σ → Prop) (hab : a ≤ b)
    (h0 : P a s) (step : ∀ i s, a ≤ i → i < b → P i s → P (i + 1) (body i s)) :
    P b (forRange a b body s) := by
  induction b, hab using Nat.le_induction with
  | base => simpa using h0
  | succ b hab ih =>
      rw [forRange_succ hab]
      exact step b _ hab (Nat.lt_succ_self b)
        (ih fun i s hai hib hP => step i s hai (Nat.lt_succ_of_lt hib) hP)

/-- Loop rule for two runs of counted loops: a relation indexed by the counter. -/
theorem forRange_rel {τ : Type*} {body : Nat → σ → σ} {body' : Nat → τ → τ} {s : σ} {t : τ}
    {a b : Nat} (R : Nat → σ → τ → Prop) (hab : a ≤ b) (h0 : R a s t)
    (step : ∀ i s t, a ≤ i → i < b → R i s t → R (i + 1) (body i s) (body' i t)) :
    R b (forRange a b body s) (forRange a b body' t) := by
  induction b, hab using Nat.le_induction with
  | base => simpa using h0
  | succ b hab ih =>
      rw [forRange_succ hab, forRange_succ hab]
      exact step b _ _ hab (Nat.lt_succ_self b)
        (ih fun i s t hai hib hR => step i s t hai (Nat.lt_succ_of_lt hib) hR)

/-- Loop rule for a family of runs, one for each index. -/
theorem forRange_family {ι : Type*} {body : ι → Nat → σ → σ} {s : ι → σ} {a b : Nat}
    (P : Nat → (ι → σ) → Prop) (hab : a ≤ b) (h0 : P a s)
    (step : ∀ n f, a ≤ n → n < b → P n f → P (n + 1) fun i => body i n (f i)) :
    P b fun i => forRange a b (body i) (s i) := by
  induction b, hab using Nat.le_induction with
  | base => simpa using h0
  | succ b hab ih =>
      simp only [forRange_succ hab]
      exact step b _ hab (Nat.lt_succ_self b)
        (ih fun n f han hnb hP => step n f han (Nat.lt_succ_of_lt hnb) hP)

/-- A loop that overwrites at some of its iterations: the last of them decides, whatever is written. -/
theorem forRange_overwrite (hit : Nat → Prop) [DecidablePred hit] (n : Nat) :
    ∃ last : Option Nat, (∀ i, last = some i → i < n ∧ hit i) ∧
      (last = none → ∀ i < n, ¬hit i) ∧
      ∀ {τ : Type} (g : Nat → τ → τ), (∀ i j v, g i (g j v) = g i v) → ∀ v,
        forRange 0 n (fun i v => if hit i then g i v else v) v = last.elim v fun i => g i v := by
  induction n with
  | zero => exact ⟨none, by simp, by simp, fun g _ v => forRange_self _ _ _⟩
  | succ n ih =>
      obtain ⟨last, hsome, hnone, hloop⟩ := ih
      by_cases hn : hit n
      · refine ⟨some n, fun i hi => ?_, fun h => absurd h (by simp), fun g hg v => ?_⟩
        · obtain rfl : n = i := by simpa using hi
          exact ⟨Nat.lt_succ_self n, hn⟩
        · rw [forRange_succ (Nat.zero_le n), if_pos hn, hloop g hg]
          cases last with
          | none => rfl
          | some i => exact hg n i v
      · refine ⟨last, fun i hi => ?_, fun h i hi => ?_, fun g hg v => ?_⟩
        · exact ⟨Nat.lt_succ_of_lt (hsome i hi).1, (hsome i hi).2⟩
        · rcases Nat.lt_succ_iff_lt_or_eq.mp hi with hlt | rfl
          · exact hnone h i hlt
          · exact hn
        · rw [forRange_succ (Nat.zero_le n), if_neg hn, hloop g hg]

@[simp] theorem forRangeOpt_self (a : Nat) (body : Nat → σ → Option σ) (s : σ) :
    forRangeOpt a a body s = some s := by
  simp [forRangeOpt]

theorem forRangeOpt_succ {a b : Nat} (hab : a ≤ b) (body : Nat → σ → Option σ) (s : σ) :
    forRangeOpt a (b + 1) body s = (forRangeOpt a b body s).bind (body b) := by
  have hlen : b + 1 - a = (b - a) + 1 := by omega
  have hlast : a + (b - a) = b := by omega
  simp only [forRangeOpt, hlen, List.range'_concat, List.foldlM_append, one_mul, hlast]
  cases (List.range' a (b - a)).foldlM (fun s i => body i s) s <;> simp

/-- Loop rule for a body that may fail: no iteration fails from a state that meets the invariant. -/
theorem forRangeOpt_inv {body : Nat → σ → Option σ} {s : σ} {a b : Nat} (P : Nat → σ → Prop)
    (hab : a ≤ b) (h0 : P a s)
    (step : ∀ i s, a ≤ i → i < b → P i s → ∃ s', body i s = some s' ∧ P (i + 1) s') :
    ∃ s', forRangeOpt a b body s = some s' ∧ P b s' := by
  induction b, hab using Nat.le_induction with
  | base => exact ⟨s, forRangeOpt_self _ _ _, h0⟩
  | succ b hab ih =>
      obtain ⟨s', hs', hP⟩ :=
        ih fun i s hai hib hP => step i s hai (Nat.lt_succ_of_lt hib) hP
      obtain ⟨s'', hs'', hP'⟩ := step b s' hab (Nat.lt_succ_self b) hP
      exact ⟨s'', by rw [forRangeOpt_succ hab, hs', Option.bind_some, hs''], hP'⟩

/-- A loop fails if one of its iterations fails in every state. -/
theorem forRangeOpt_none {body : Nat → σ → Option σ} {a b i : Nat} (hai : a ≤ i) (hib : i < b)
    (hfail : ∀ s, body i s = none) (s : σ) : forRangeOpt a b body s = none := by
  induction b, (show i + 1 ≤ b from hib) using Nat.le_induction with
  | base =>
      rw [forRangeOpt_succ hai]
      cases forRangeOpt a i body s with
      | none => rfl
      | some s => exact hfail s
  | succ b hb ih => rw [forRangeOpt_succ (by omega), ih hb, Option.bind_none]

/-- A loop whose body never fails. -/
theorem forRangeOpt_eq_forRange {body : Nat → σ → Option σ} {body' : Nat → σ → σ} {a b : Nat} (hab : a ≤ b)
    (h : ∀ i s, body i s = some (body' i s)) (s : σ) :
    forRangeOpt a b body s = some (forRange a b body' s) := by
  induction b, hab using Nat.le_induction with
  | base => rw [forRangeOpt_self, forRange_self]
  | succ b hab ih => rw [forRangeOpt_succ hab, ih, Option.bind_some, h, forRange_succ hab]

/-! ## Chunked ranges -/

/-- The size of chunk `t` when `n` items are dealt to `k` threads. -/
def chunkSize (n k t : Nat) : Nat := n / k + if t < n % k then 1 else 0

/-- Run `body lo hi` on each of the `k` consecutive chunks of `[0, n)`. -/
def forChunks (n k : Nat) (body : Nat → Nat → σ → σ) (s : σ) : σ :=
  (forRange 0 k (fun t st =>
    (st.1 + chunkSize n k t, body st.1 (st.1 + chunkSize n k t) st.2)) (0, s)).2

theorem chunkStart_succ (n k t : Nat) :
    (t * (n / k) + min t (n % k)) + chunkSize n k t = (t + 1) * (n / k) + min (t + 1) (n % k) := by
  rw [add_one_mul]
  unfold chunkSize
  split <;> omega

theorem chunkStart_le {n k t : Nat} (ht : t ≤ k) : t * (n / k) + min t (n % k) ≤ n := by
  calc t * (n / k) + min t (n % k)
      ≤ k * (n / k) + n % k := Nat.add_le_add (Nat.mul_le_mul_right _ ht) (min_le_right _ _)
    _ = n := Nat.div_add_mod n k

theorem chunkStart_last {n k : Nat} (hk : 0 < k) : k * (n / k) + min k (n % k) = n := by
  rw [min_eq_right (Nat.mod_lt n hk).le, Nat.div_add_mod]

/-- The chunks cover `[0, n)` in order: what one chunk carries from its start to its end, all of
them carry from `0` to `n`. -/
theorem forChunks_inv {n k : Nat} {body : Nat → Nat → σ → σ} {s : σ} (P : Nat → σ → Prop)
    (hk : 0 < k) (h0 : P 0 s) (step : ∀ a b s, a ≤ b → b ≤ n → P a s → P b (body a b s)) :
    P n (forChunks n k body s) := by
  unfold forChunks
  generalize hst : forRange 0 k _ (0, s) = st
  have hinv : st.1 = k * (n / k) + min k (n % k) ∧ P st.1 st.2 := by
    rw [← hst]
    refine forRange_inv
      (fun t (st : Nat × σ) => st.1 = t * (n / k) + min t (n % k) ∧ P st.1 st.2) (Nat.zero_le k)
      ⟨by simp, h0⟩ ?_
    rintro t ⟨lo, s⟩ - htk ⟨rfl, hP⟩
    refine ⟨chunkStart_succ n k t, step _ _ _ (Nat.le_add_right _ _) ?_ hP⟩
    show t * (n / k) + min t (n % k) + chunkSize n k t ≤ n
    rw [chunkStart_succ]
    exact chunkStart_le htk
  obtain ⟨hlast, hP⟩ := hinv
  rw [chunkStart_last hk] at hlast
  rwa [hlast] at hP

/-- If each chunk does what the loop does on its range, the chunks together are the loop. -/
theorem forChunks_eq_forRange {n k : Nat} {chunk : Nat → Nat → σ → σ} {body : Nat → σ → σ}
    (hk : 0 < k) (hchunk : ∀ a b s, a ≤ b → chunk a b s = forRange a b body s) (s : σ) :
    forChunks n k chunk s = forRange 0 n body s := by
  refine forChunks_inv (fun m t => t = forRange 0 m body s) hk (forRange_self 0 body s).symm ?_
  rintro a b t hab - rfl
  rw [hchunk a b _ hab, forRange_append (Nat.zero_le a) hab]

end Loop
