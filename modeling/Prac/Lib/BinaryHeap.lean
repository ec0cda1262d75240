import Mathlib.Algebra.Order.Interval.Finset.SuccPred
import Mathlib.Data.Finset.Image
import Mathlib.Data.Nat.Log
import Mathlib.Data.Nat.SuccPred
import Mathlib.Order.Interval.Finset.Nat
import Prac.Lib.Loop

/-!
# Binary heaps in arrays

An array is a function of the cell number; the root is cell 1, and the parent of `i` is `i / 2`.
Entries are compared by a `key`, so that an array of references is a heap as well.

* `Ordered` — heap order on the cells below a bound; `items` — the entries of cells `1 … n`.
* `compareExchange`, `climb` — one exchange of a child and its parent, and the walk that makes one
  at every ancestor.
* `Placed` — what a heap looks like once a value has been inserted at a free cell: every ancestor
  holds the middle one of its parent, itself and the value.  `climb` gets there (`climb_placed`), and
  the result is ordered again (`Placed.ordered`).
* `OrderedBelow` — heap order but for one cell, which may be above its children;
  `OrderedBelow.step` moves the exception to the smaller child.
* `sift` — the exception moved down level by level; in an array padded with a largest key
  (`Padded`) it ends in heap order (`Padded.sift`).
* `RootMin` — the root is the least entry; `climb_rootMin` keeps it and `climbLeaves_rootMin` restores
  it, without heap order.
-/

namespace BinaryHeap

variable {α β : Type*} [LinearOrder β] (key : α → β)

/-- Heap order on the cells `1 … N - 1`. -/
def Ordered (a : Nat → α) (N : Nat) : Prop :=
  ∀ i, 2 ≤ i → i < N → key (a (i / 2)) ≤ key (a i)

variable {key}

theorem Ordered.root_le {a : Nat → α} {N : Nat} (h : Ordered key a N) {i : Nat} (hpos : 1 ≤ i)
    (hi : i < N) : key (a 1) ≤ key (a i) := by
  induction i using Nat.strong_induction_on with
  | _ i ih =>
      rcases Nat.lt_or_ge i 2 with hlt | hge
      · have : i = 1 := by omega
        rw [this]
      · exact (ih (i / 2) (by omega) (by omega) (by omega)).trans (h i hge hi)

/-- The entries of the cells `1 … n`. -/
def items (a : Nat → α) (n : Nat) : Multiset α := (Finset.Icc 1 n).val.map a

theorem items_zero (a : Nat → α) : items a 0 = 0 := rfl

theorem items_succ (a : Nat → α) (n : Nat) : items a (n + 1) = a (n + 1) ::ₘ items a n := by
  unfold items
  rw [← Finset.insert_Icc_right_eq_Icc_add_one (Nat.le_add_left 1 n),
    Finset.insert_val_of_notMem (by simp), Multiset.map_cons]

theorem items_congr {a b : Nat → α} {n : Nat} (h : ∀ i, 1 ≤ i → i ≤ n → a i = b i) :
    items a n = items b n := by
  apply Multiset.map_congr rfl
  intro i hi
  have hi := Finset.mem_Icc.mp (Finset.mem_val.mp hi)
  exact h i hi.1 hi.2

theorem items_update_of_lt (a : Nat → α) {n i : Nat} (h : n < i) (v : α) :
    items (Function.update a i v) n = items a n := by
  apply items_congr
  intro j _ hj
  exact Function.update_of_ne (lt_of_le_of_lt hj h).ne v a

theorem mem_items {a : Nat → α} {n : Nat} {x : α} : x ∈ items a n ↔ ∃ i, 1 ≤ i ∧ i ≤ n ∧ a i = x := by
  unfold items
  rw [Multiset.mem_map]
  constructor
  · rintro ⟨i, hi, rfl⟩
    have hi := Finset.mem_Icc.mp (Finset.mem_val.mp hi)
    exact ⟨i, hi.1, hi.2, rfl⟩
  · rintro ⟨i, hpos, hle, rfl⟩
    exact ⟨i, Finset.mem_Icc.mpr ⟨hpos, hle⟩, rfl⟩

/-! ## Exchanges -/

/-- The contents of two cells exchanged. -/
def exchange (a : Nat → α) (i j : Nat) : Nat → α := a ∘ Equiv.swap i j

@[simp] theorem exchange_left (a : Nat → α) (i j : Nat) : exchange a i j i = a j :=
  congrArg a (Equiv.swap_apply_left i j)

@[simp] theorem exchange_right (a : Nat → α) (i j : Nat) : exchange a i j j = a i :=
  congrArg a (Equiv.swap_apply_right i j)

theorem exchange_of_ne (a : Nat → α) {i j k : Nat} (hi : k ≠ i) (hj : k ≠ j) :
    exchange a i j k = a k := congrArg a (Equiv.swap_apply_of_ne_of_ne hi hj)

theorem items_exchange (a : Nat → α) {n i j : Nat} (hi : 1 ≤ i ∧ i ≤ n) (hj : 1 ≤ j ∧ j ≤ n) :
    items (exchange a i j) n = items a n := by
  unfold items exchange
  rw [← Multiset.map_map]
  congr 1
  have hmap : (Finset.Icc 1 n).map (Equiv.swap i j : Equiv.Perm Nat).toEmbedding =
      Finset.Icc 1 n := by
    apply Finset.map_perm
    intro k hk
    rcases Equiv.swap_apply_ne_self_iff.mp hk with ⟨-, rfl | rfl⟩
    · exact Finset.mem_coe.mpr (Finset.mem_Icc.mpr hi)
    · exact Finset.mem_coe.mpr (Finset.mem_Icc.mpr hj)
  exact congrArg Finset.val hmap

variable (key)

/-- A child and its parent exchanged if the child's key is smaller. -/
def compareExchange (a : Nat → α) (child parent : Nat) : Nat → α :=
  if key (a child) < key (a parent) then exchange a child parent else a

variable {key}

variable (key) in
theorem compareExchange_parent (a : Nat → α) (c p : Nat) :
    key (compareExchange key a c p p) = min (key (a c)) (key (a p)) := by
  unfold compareExchange
  split
  · rename_i hlt
    rw [exchange_right, min_eq_left hlt.le]
  · rename_i hlt
    rw [min_eq_right (not_lt.mp hlt)]

variable (key) in
theorem compareExchange_child (a : Nat → α) (c p : Nat) :
    key (compareExchange key a c p c) = max (key (a c)) (key (a p)) := by
  unfold compareExchange
  split
  · rename_i hlt
    rw [exchange_left, max_eq_right hlt.le]
  · rename_i hlt
    rw [max_eq_left (not_lt.mp hlt)]

theorem compareExchange_of_ne (a : Nat → α) {c p k : Nat} (hc : k ≠ c) (hp : k ≠ p) :
    compareExchange key a c p k = a k := by
  unfold compareExchange
  split
  · exact exchange_of_ne a hc hp
  · rfl

theorem items_compareExchange (a : Nat → α) {n c p : Nat} (hc : 1 ≤ c ∧ c ≤ n)
    (hp : 1 ≤ p ∧ p ≤ n) : items (compareExchange key a c p) n = items a n := by
  unfold compareExchange
  split
  · exact items_exchange a hc hp
  · rfl

/-! ## Ancestors -/

/-- `p` is `n` or an ancestor of it. -/
def Ancestor (p n : Nat) : Prop := 1 ≤ p ∧ ∃ t, p = n / 2 ^ t

theorem Ancestor.self {n : Nat} (h : 1 ≤ n) : Ancestor n n := ⟨h, 0, by simp⟩

theorem Ancestor.le {p n : Nat} (h : Ancestor p n) : p ≤ n := by
  obtain ⟨-, t, rfl⟩ := h
  exact Nat.div_le_self _ _

theorem Ancestor.half {p n : Nat} (h : Ancestor p n) (hp : 2 ≤ p) : Ancestor (p / 2) n := by
  obtain ⟨-, t, rfl⟩ := h
  refine ⟨by omega, t + 1, ?_⟩
  rw [Nat.div_div_eq_div_mul, ← Nat.pow_succ]

/-- Nothing on the path lies between a cell and its parent. -/
theorem Ancestor.le_half {p c n : Nat} (hp : Ancestor p n) (hc : Ancestor c n) (hlt : p < c) :
    p ≤ c / 2 := by
  obtain ⟨-, t, rfl⟩ := hp
  obtain ⟨hpos, u, rfl⟩ := hc
  have htu : u < t := by
    by_contra hle
    exact absurd (Nat.div_le_div_left (Nat.pow_le_pow_right Nat.two_pos (not_lt.mp hle))
      (Nat.two_pow_pos t)) (not_le.mpr hlt)
  rw [Nat.div_div_eq_div_mul, ← Nat.pow_succ]
  exact Nat.div_le_div_left (Nat.pow_le_pow_right Nat.two_pos htu) (Nat.two_pow_pos _)

/-! ## The climb from a cell to the root -/

/-- `while (parent > 0) { body(child, parent); child = parent; parent /= 2; }`, from `parent =
child / 2`. -/
def climb {σ : Type*} (body : Nat → Nat → σ → σ) (child : Nat) (s : σ) : σ :=
  if 0 < child / 2 then climb body (child / 2) (body child (child / 2) s) else s
termination_by child
decreasing_by omega

/-- Loop rule for `climb`: an invariant indexed by the current cell. -/
theorem climb_inv {σ : Type*} (body : Nat → Nat → σ → σ) (P : Nat → σ → Prop) {n : Nat}
    (step : ∀ c s, 2 ≤ c → Ancestor c n → P c s → P (c / 2) (body c (c / 2) s)) {s : σ}
    (hn : 1 ≤ n) (h0 : P n s) : P 1 (climb body n s) := by
  suffices hclimb : ∀ c s, Ancestor c n → P c s → P 1 (climb body c s) from
    hclimb n s (Ancestor.self hn) h0
  intro c
  induction c using Nat.strong_induction_on with
  | _ c ih =>
      intro s hc hP
      unfold climb
      split
      · rename_i hpos
        exact ih (c / 2) (by omega) _ (hc.half (by omega)) (step c s (by omega) hc hP)
      · have : c = 1 := by
          have := hc.1
          omega
        exact this ▸ hP

/-- Loop rule for two climbs: a relation that the two bodies keep. -/
theorem climb_rel {σ τ : Type*} {body : Nat → Nat → σ → σ} {body' : Nat → Nat → τ → τ} (R : σ → τ → Prop)
    (step : ∀ c s t, R s t → R (body c (c / 2) s) (body' c (c / 2) t)) (n : Nat) {s : σ} {t : τ}
    (h : R s t) : R (climb body n s) (climb body' n t) := by
  induction n using Nat.strong_induction_on generalizing s t with
  | _ n ih =>
      unfold climb
      split
      · exact ih (n / 2) (by omega) (step n s t h)
      · exact h

/-- Two bodies that agree wherever an invariant holds climb alike. -/
theorem climb_congr {σ : Type*} {body body' : Nat → Nat → σ → σ} (P : σ → Prop) {n : Nat}
    (h : ∀ c s, 2 ≤ c → c ≤ n → P s →
      body c (c / 2) s = body' c (c / 2) s ∧ P (body' c (c / 2) s))
    {s : σ} (hs : P s) : climb body n s = climb body' n s := by
  induction n using Nat.strong_induction_on generalizing s with
  | _ n ih =>
      unfold climb
      split
      · rename_i hpos
        obtain ⟨heq, hP⟩ := h n s (by omega) le_rfl hs
        rw [heq, ih (n / 2) (by omega) (fun c s hge hc => h c s hge (by omega)) hP]
      · rfl

/-! ## Insertion -/

variable (key)

/-- `b` is the heap `a` with a value of key `v` inserted at the free cell `n`. -/
structure Placed (a : Nat → α) (v : β) (n : Nat) (b : Nat → α) : Prop where
  root : key (b 1) = min v (key (a 1))
  path : ∀ p, 2 ≤ p → Ancestor p n → key (b p) = max (key (a (p / 2))) (min v (key (a p)))
  off : ∀ p, ¬ Ancestor p n → b p = a p

variable {key}

/-- What has been inserted where does not depend on how. -/
theorem Placed.unique {a b b' : Nat → α} {v : β} {n : Nat}
    (hkey : Function.Injective key) (h : Placed key a v n b) (h' : Placed key a v n b') : b = b' := by
  funext p
  by_cases hp : Ancestor p n
  · apply hkey
    rcases Nat.lt_or_ge p 2 with hlt | hge
    · have : p = 1 := by
        have := hp.1
        omega
      rw [this, h.root, h'.root]
    · rw [h.path p hge hp, h'.path p hge hp]
  · rw [h.off p hp, h'.off p hp]

/-- Entries on the path do not get larger. -/
theorem Placed.le {a b : Nat → α} {v : β} {n N : Nat} (h : Placed key a v n b)
    (ha : Ordered key a N) {p : Nat} (hp : Ancestor p n) (hN : p < N) : key (b p) ≤ key (a p) := by
  rcases Nat.lt_or_ge p 2 with hlt | hge
  · have : p = 1 := by
      have := hp.1
      omega
    rw [this, h.root]
    exact min_le_right _ _
  · rw [h.path p hge hp]
    exact max_le (ha p hge hN) (min_le_right _ _)

theorem Placed.ordered {a b : Nat → α} {v : β} {n N : Nat} (h : Placed key a v n b)
    (ha : Ordered key a N) : Ordered key b N := by
  intro i hge hi
  have hparent : key (b (i / 2)) ≤ key (a (i / 2)) := by
    by_cases hp : Ancestor (i / 2) n
    · exact h.le ha hp (by omega)
    · rw [h.off _ hp]
  refine hparent.trans ?_
  by_cases hp : Ancestor i n
  · rw [h.path i hge hp]
    exact le_max_left _ _
  · rw [h.off _ hp]
    exact ha i hge hi

variable (key)

/-- The climb at cell `c`: below it the cells are final, it holds the smaller of its old entry and the
new value, and the rest is untouched. -/
structure Climbing (a : Nat → α) (v : β) (n c : Nat) (s : Nat → α) : Prop where
  cur : key (s c) = min v (key (a c))
  below : ∀ p, c < p → Ancestor p n → key (s p) = max (key (a (p / 2))) (min v (key (a p)))
  off : ∀ p, p < c ∨ ¬ Ancestor p n → s p = a p

variable {key}

theorem Climbing.step {a s : Nat → α} {v : β} {n N c : Nat} (ha : Ordered key a N) (hN : n < N)
    (hge : 2 ≤ c) (hc : Ancestor c n) (h : Climbing key a v n c s) :
    Climbing key a v n (c / 2) (compareExchange key s c (c / 2)) := by
  have hparent : s (c / 2) = a (c / 2) := h.off _ (Or.inl (by omega))
  have hle : key (a (c / 2)) ≤ key (a c) := ha c hge (lt_of_le_of_lt hc.le hN)
  refine ⟨?_, ?_, ?_⟩
  · rw [compareExchange_parent key, h.cur, hparent, min_assoc, min_eq_right hle]
  · intro p hlt hp
    rcases eq_or_ne p c with rfl | hne
    · rw [compareExchange_child key, h.cur, hparent, max_comm]
    · have hcp : c < p := by
        by_contra hnot
        exact absurd (hp.le_half hc (by omega)) (by omega)
      rw [compareExchange_of_ne s hne (by omega)]
      exact h.below p hcp hp
  · intro p hp
    have hne : p ≠ c ∧ p ≠ c / 2 := by
      rcases hp with hlt | hnot
      · omega
      · constructor
        · rintro rfl
          exact hnot hc
        · rintro rfl
          exact hnot (hc.half hge)
    rw [compareExchange_of_ne s hne.1 hne.2]
    apply h.off
    rcases hp with hlt | hnot
    · exact Or.inl (by omega)
    · exact Or.inr hnot

/-- Climbing with exchanges from the new cell inserts. -/
theorem climb_placed {a : Nat → α} {n N : Nat} (ha : Ordered key a N) (hn : 1 ≤ n) (hN : n < N)
    (v : α) (hv : key v ≤ key (a n)) :
    Placed key a (key v) n
      (climb (fun c p s => compareExchange key s c p) n (Function.update a n v)) := by
  have hstart : Climbing key a (key v) n n (Function.update a n v) := by
    refine ⟨?_, ?_, ?_⟩
    · rw [Function.update_self, min_eq_left hv]
    · intro p hlt hp
      exact absurd hp.le (not_le.mpr hlt)
    · intro p hp
      apply Function.update_of_ne
      rintro rfl
      rcases hp with hlt | hnot
      · exact absurd hlt (lt_irrefl _)
      · exact hnot (Ancestor.self hn)
  have hend := climb_inv (fun c p s => compareExchange key s c p) (Climbing key a (key v) n)
    (fun c s hge hc hs => hs.step ha hN hge hc) hn hstart
  exact ⟨hend.cur, fun p hge hp => hend.below p hge hp, fun p hp => hend.off p (Or.inr hp)⟩

theorem items_climb (a : Nat → α) {n m : Nat} (hn : 1 ≤ n) (hm : n ≤ m) :
    items (climb (fun c p s => compareExchange key s c p) n a) m = items a m := by
  apply climb_inv (fun c p s => compareExchange key s c p) (fun _ s => items s m = items a m) _ hn rfl
  intro c s hge hc hs
  have := hc.le
  rw [items_compareExchange s ⟨by omega, by omega⟩ ⟨by omega, by omega⟩, hs]

/-! ## The path as a sequence -/

/-- The path from the root to `n`, as a sequence. -/
def pathNode (n j : Nat) : Nat := n / 2 ^ (Nat.log2 n - j)

theorem pathNode_last (n : Nat) : pathNode n (Nat.log2 n) = n := by
  unfold pathNode
  rw [Nat.sub_self, Nat.pow_zero, Nat.div_one]

theorem pathNode_half {n j : Nat} (hj : j < Nat.log2 n) :
    pathNode n (j + 1) / 2 = pathNode n j := by
  have hexp : Nat.log2 n - j = Nat.log2 n - (j + 1) + 1 := by omega
  unfold pathNode
  rw [Nat.div_div_eq_div_mul, ← Nat.pow_succ, hexp]

/-- Node `j` of the path lies in layer `j`. -/
theorem pathNode_layer {n j : Nat} (hn : 1 ≤ n) (hj : j ≤ Nat.log2 n) :
    2 ^ j ≤ pathNode n j ∧ pathNode n j < 2 ^ (j + 1) := by
  have hsplit : 2 ^ Nat.log2 n = 2 ^ j * 2 ^ (Nat.log2 n - j) := by
    rw [← Nat.pow_add, Nat.add_sub_cancel' hj]
  have hpos := Nat.two_pow_pos (Nat.log2 n - j)
  unfold pathNode
  constructor
  · rw [Nat.le_div_iff_mul_le hpos, ← hsplit]
    exact Nat.log2_self_le (by omega)
  · rw [Nat.div_lt_iff_lt_mul hpos, Nat.pow_succ', Nat.mul_assoc, ← hsplit, ← Nat.pow_succ']
    exact Nat.lt_log2_self

theorem pathNode_zero {n : Nat} (hn : 1 ≤ n) : pathNode n 0 = 1 := by
  have hlayer := pathNode_layer hn (Nat.zero_le _)
  omega

theorem pathNode_inj {n i j : Nat} (hn : 1 ≤ n) (hi : i ≤ Nat.log2 n) (hj : j ≤ Nat.log2 n)
    (h : pathNode n i = pathNode n j) : i = j := by
  have hi := pathNode_layer hn hi
  have hj := pathNode_layer hn hj
  rcases lt_trichotomy i j with hlt | heq | hgt
  · have := Nat.pow_le_pow_right Nat.two_pos (Nat.succ_le_of_lt hlt)
    omega
  · exact heq
  · have := Nat.pow_le_pow_right Nat.two_pos (Nat.succ_le_of_lt hgt)
    omega

theorem ancestor_iff_pathNode {p n : Nat} (hn : 1 ≤ n) :
    Ancestor p n ↔ ∃ j ≤ Nat.log2 n, p = pathNode n j := by
  constructor
  · rintro ⟨hpos, t, rfl⟩
    have ht : t ≤ Nat.log2 n := by
      by_contra hgt
      have hpow : 2 ^ (Nat.log2 n + 1) ≤ 2 ^ t := Nat.pow_le_pow_right Nat.two_pos (by omega)
      have hlog : n < 2 ^ (Nat.log2 n + 1) := Nat.lt_log2_self
      rw [Nat.div_eq_of_lt (by omega)] at hpos
      omega
    refine ⟨Nat.log2 n - t, Nat.sub_le _ _, ?_⟩
    unfold pathNode
    rw [Nat.sub_sub_self ht]
  · rintro ⟨j, hj, rfl⟩
    have hlayer := pathNode_layer hn hj
    have := Nat.two_pow_pos j
    exact ⟨by omega, _, rfl⟩

/-- The path of a heap is sorted. -/
theorem Ordered.path_le {a : Nat → α} {n N i j : Nat} (h : Ordered key a N) (hn : 1 ≤ n)
    (hN : n < N) (hij : i ≤ j) (hj : j ≤ Nat.log2 n) :
    key (a (pathNode n i)) ≤ key (a (pathNode n j)) := by
  induction j, hij using Nat.le_induction with
  | base => exact le_rfl
  | succ j hij ih =>
      have hlayer := pathNode_layer hn hj
      have hpos := Nat.two_pow_pos j
      have hanc := (ancestor_iff_pathNode hn).mpr ⟨j + 1, hj, rfl⟩
      have hstep := h (pathNode n (j + 1)) (by rw [Nat.pow_succ] at hlayer; omega)
        (lt_of_le_of_lt hanc.le hN)
      rw [pathNode_half hj] at hstep
      exact (ih (by omega)).trans hstep

/-- Shifting the end of the path by one places the value. -/
theorem placed_of_shift {a b : Nat → α} {v : β} {n N r : Nat} (h : Ordered key a N) (hn : 1 ≤ n)
    (hN : n < N) (hbelow : ∀ j < r, j ≤ Nat.log2 n → key (a (pathNode n j)) < v)
    (habove : ∀ j, r ≤ j → j ≤ Nat.log2 n → v ≤ key (a (pathNode n j)))
    (hb : ∀ j ≤ Nat.log2 n, key (b (pathNode n j)) = if j < r then key (a (pathNode n j))
      else if j = r then v else key (a (pathNode n (j - 1))))
    (hoff : ∀ p, ¬ Ancestor p n → b p = a p) : Placed key a v n b := by
  refine ⟨?_, ?_, hoff⟩
  · have hroot := hb 0 (Nat.zero_le _)
    rw [pathNode_zero hn] at hroot
    rw [hroot]
    split
    · rename_i hpos
      have hlt := hbelow 0 hpos (Nat.zero_le _)
      rw [pathNode_zero hn] at hlt
      rw [min_eq_right hlt.le]
    · rename_i hzero
      have hle := habove 0 (not_lt.mp hzero) (Nat.zero_le _)
      rw [pathNode_zero hn] at hle
      rw [if_pos (by omega), min_eq_left hle]
  · intro p hge hp
    obtain ⟨j, hj, rfl⟩ := (ancestor_iff_pathNode hn).mp hp
    cases j with
    | zero =>
        rw [pathNode_zero hn] at hge
        omega
    | succ j =>
        have hle := h.path_le hn hN (Nat.le_succ j) hj
        rw [pathNode_half hj, hb _ hj, Nat.add_sub_cancel]
        rcases lt_trichotomy (j + 1) r with hlt | heq | hgt
        · rw [if_pos hlt, min_eq_right (hbelow _ hlt hj).le, max_eq_right hle]
        · rw [if_neg (by omega), if_pos heq, min_eq_left (habove _ heq.ge hj),
            max_eq_right (hbelow j (by omega) (by omega)).le]
        · rw [if_neg (by omega), if_neg (by omega), min_eq_left (habove _ (by omega) hj),
            max_eq_left (habove j (by omega) (by omega))]

/-! ## Sifting down -/

variable (key)

/-- Heap order but for the cell `i`, which may be above its children; its parent is not. -/
structure OrderedBelow (a : Nat → α) (N i : Nat) : Prop where
  off : ∀ j, 2 ≤ j → j < N → j / 2 ≠ i → key (a (j / 2)) ≤ key (a j)
  above : ∀ j, j < N → j / 2 = i → 2 ≤ i → key (a (i / 2)) ≤ key (a j)

/-- The child that takes part in the exchange: the left one only if it is smaller. -/
def smallerChild (a : Nat → α) (i : Nat) : Nat :=
  if key (a (2 * i)) < key (a (2 * i + 1)) then 2 * i else 2 * i + 1

variable {key}

variable (key) in
theorem smallerChild_half (a : Nat → α) (i : Nat) : smallerChild key a i / 2 = i := by
  unfold smallerChild
  split <;> omega

theorem smallerChild_le (a : Nat → α) {i j : Nat} (hj : j / 2 = i) :
    key (a (smallerChild key a i)) ≤ key (a j) := by
  have hcases : j = 2 * i ∨ j = 2 * i + 1 := by omega
  unfold smallerChild
  split
  · rename_i hlt
    rcases hcases with rfl | rfl
    · exact le_rfl
    · exact hlt.le
  · rename_i hlt
    rcases hcases with rfl | rfl
    · exact not_lt.mp hlt
    · exact le_rfl

/-- An exchange with the smaller child moves the exception there. -/
theorem OrderedBelow.step {a : Nat → α} {N i : Nat} (h : OrderedBelow key a N i) (hi : 1 ≤ i)
    (hN : 2 * i + 1 < N) :
    OrderedBelow key (compareExchange key a (smallerChild key a i) i) N (smallerChild key a i) := by
  obtain ⟨c, hc⟩ : ∃ c, c = smallerChild key a i := ⟨_, rfl⟩
  have hhalf : c / 2 = i := hc ▸ smallerChild_half key a i
  rw [← hc]
  have hci : c ≠ i := by omega
  refine ⟨?_, ?_⟩
  · intro j hge hj hne
    rcases eq_or_ne (j / 2) i with hji | hji
    · -- a child of `i`, which now holds the least of the three
      have hmin : key (compareExchange key a c i i) ≤ key (a j) := by
        rw [compareExchange_parent key]
        exact (min_le_left _ _).trans (hc ▸ smallerChild_le a hji)
      rw [hji]
      rcases eq_or_ne j c with rfl | hjc
      · rw [compareExchange_parent key, compareExchange_child key]
        exact min_le_max
      · rw [compareExchange_of_ne a hjc (by omega)]
        exact hmin
    · rw [compareExchange_of_ne a (k := j / 2) hne hji]
      rcases eq_or_ne j i with rfl | hjne
      · rw [compareExchange_parent key]
        exact le_min (h.above c (by omega) hhalf hge) (h.off j hge hj hji)
      · rw [compareExchange_of_ne a (by omega) hjne]
        exact h.off j hge hj hji
  · intro j hj hjc hge
    have hold : key (a c) ≤ key (a j) := hjc ▸ h.off j (by omega) hj (by omega)
    rw [hhalf, compareExchange_parent key, compareExchange_of_ne a (by omega) (by omega)]
    exact (min_le_left _ _).trans hold

theorem OrderedBelow.ordered {a : Nat → α} {N i : Nat} (h : OrderedBelow key a N i)
    (hleaf : ∀ j, 2 ≤ j → j < N → j / 2 = i → key (a i) ≤ key (a j)) : Ordered key a N := by
  intro j hge hj
  rcases eq_or_ne (j / 2) i with heq | hne
  · rw [heq]
    exact hleaf j hge hj heq
  · exact h.off j hge hj hne

/-- A heap whose root is replaced is ordered but for the root. -/
theorem Ordered.replaceRoot {a : Nat → α} {N : Nat} (h : Ordered key a N) (v : α) :
    OrderedBelow key (Function.update a 1 v) N 1 := by
  refine ⟨?_, fun j _ _ hge => absurd hge (by omega)⟩
  intro j hge hj hne
  rw [Function.update_of_ne hne, Function.update_of_ne (by omega)]
  exact h j hge hj

variable (key)

/-- The exchange of cell `i` with its smaller child, and the child as the next cell. -/
def siftStep (s : Nat × (Nat → α)) : Nat × (Nat → α) :=
  let c := smallerChild key s.2 s.1
  (c, compareExchange key s.2 c s.1)

/-- The exception moved down `t` levels. -/
def sift (t i : Nat) (a : Nat → α) : Nat → α := ((siftStep key)^[t] (i, a)).2

variable {key}

variable (key) in
/-- Sifting goes down one layer at a time. -/
theorem siftStep_layer (t : Nat) (a : Nat → α) {i s : Nat} (hi : 2 ^ s ≤ i)
    (his : i < 2 ^ (s + 1)) :
    2 ^ (s + t) ≤ ((siftStep key)^[t] (i, a)).1 ∧
      ((siftStep key)^[t] (i, a)).1 < 2 ^ (s + t + 1) := by
  induction t with
  | zero => exact ⟨hi, his⟩
  | succ t ih =>
      rw [Function.iterate_succ_apply']
      obtain ⟨s', hs'⟩ : ∃ s', s' = (siftStep key)^[t] (i, a) := ⟨_, rfl⟩
      rw [← hs'] at ih ⊢
      have hhalf : (siftStep key s').1 / 2 = s'.1 := smallerChild_half key s'.2 s'.1
      have h1 : 2 ^ (s + (t + 1)) = 2 * 2 ^ (s + t) := Nat.pow_succ'
      have h2 : 2 ^ (s + (t + 1) + 1) = 2 * 2 ^ (s + t + 1) := Nat.pow_succ'
      omega

variable (key)

/-- Entries `1 … n` in an array whose other cells below `N` hold a largest key `T`. -/
structure Padded (a : Nat → α) (n N : Nat) (T : β) : Prop where
  le : ∀ i, key (a i) ≤ T
  top : ∀ j, n < j → j < N → key (a j) = T

variable {key}

theorem Padded.compareExchange {a : Nat → α} {n N : Nat} {T : β} (h : Padded key a n N T) {c : Nat}
    (hge : 2 ≤ c) (hN : c < N) :
    Padded key (compareExchange key a c (c / 2)) n N T ∧
      items (compareExchange key a c (c / 2)) n = items a n := by
  rcases Nat.lt_or_ge n c with hlt | hle
  · -- an unused child is not smaller than its parent
    have hsame : BinaryHeap.compareExchange key a c (c / 2) = a := by
      unfold BinaryHeap.compareExchange
      rw [if_neg (not_lt.mpr (h.top c hlt hN ▸ h.le _))]
    rw [hsame]
    exact ⟨h, rfl⟩
  · refine ⟨⟨?_, ?_⟩, items_compareExchange a ⟨by omega, hle⟩ ⟨by omega, by omega⟩⟩
    · intro i
      unfold BinaryHeap.compareExchange
      split
      · exact h.le _
      · exact h.le i
    · intro j hlt hj
      rw [compareExchange_of_ne a (by omega) (by omega)]
      exact h.top j hlt hj

/-- Sifting down from the root as far as the array has used levels restores heap order. -/
theorem Padded.sift {a : Nat → α} {n N : Nat} {T : β} (h : Padded key a n N T) {i s t : Nat}
    (hord : OrderedBelow key a N i) (hi : 2 ^ s ≤ i) (his : i < 2 ^ (s + 1))
    (hn : n < 2 ^ (s + t + 1)) (hN : 2 ^ (s + t + 1) ≤ N) :
    Ordered key (sift key t i a) N ∧ Padded key (sift key t i a) n N T ∧
      items (sift key t i a) n = items a n ∧ sift key t i a 0 = a 0 := by
  have hpos := Nat.two_pow_pos s
  induction t generalizing a i s with
  | zero =>
      refine ⟨hord.ordered ?_, h, rfl, rfl⟩
      intro j _ hj hji
      have hdouble : 2 ^ (s + 0 + 1) = 2 * 2 ^ s := Nat.pow_succ'
      have hunused : n < j := by omega
      rw [h.top j hunused hj]
      exact h.le i
  | succ t ih =>
      have hle : 2 ^ (s + 1 + 1) ≤ N :=
        (Nat.pow_le_pow_right Nat.two_pos (by omega)).trans hN
      have hs1 : 2 ^ (s + 1) = 2 * 2 ^ s := Nat.pow_succ'
      have hs2 : 2 ^ (s + 1 + 1) = 2 * 2 ^ (s + 1) := Nat.pow_succ'
      obtain ⟨c, hc⟩ : ∃ c, c = smallerChild key a i := ⟨_, rfl⟩
      have hhalf : c / 2 = i := hc ▸ smallerChild_half key a i
      have hexp : s + 1 + t + 1 = s + (t + 1) + 1 := by omega
      have hpad := h.compareExchange (c := c) (by omega) (by omega)
      rw [hhalf] at hpad
      have hstep := hord.step (by omega) (by omega)
      rw [← hc] at hstep
      obtain ⟨hord', hpad', hitems, hzero⟩ := ih hpad.1 hstep (s := s + 1) (by omega) (by omega)
        (by rw [hexp]; exact hn) (by rw [hexp]; exact hN) (Nat.two_pow_pos _)
      have hunfold : BinaryHeap.sift key (t + 1) i a =
          BinaryHeap.sift key t c (BinaryHeap.compareExchange key a c i) := hc ▸ rfl
      rw [hunfold]
      refine ⟨hord', hpad', hitems.trans hpad.2, hzero.trans ?_⟩
      exact compareExchange_of_ne a (by omega) (by omega)

/-! ## Heaps of which only the root is known -/

variable (key)

/-- The root is the least of the entries `1 … n`. -/
def RootMin (a : Nat → α) (n : Nat) : Prop := ∀ i, 1 ≤ i → i ≤ n → key (a 1) ≤ key (a i)

variable {key}

variable (key) in
/-- A climb leaves the cells off its path alone, the least entry of the path at the root, and the root
no larger than it was. -/
theorem climb_root (a : Nat → α) {n : Nat} (hn : 1 ≤ n) :
    let b := climb (fun c p s => compareExchange key s c p) n a
    (∀ p, ¬ Ancestor p n → b p = a p) ∧ (∀ p, Ancestor p n → key (b 1) ≤ key (b p)) ∧
      key (b 1) ≤ key (a 1) := by
  have hend := climb_inv (fun c p (s : Nat → α) => compareExchange key s c p)
    (fun c s => (∀ p, p < c ∨ ¬ Ancestor p n → s p = a p) ∧
      (∀ p, c ≤ p → Ancestor p n → key (s c) ≤ key (s p)) ∧ (c = 1 → key (s 1) ≤ key (a 1))) ?_ hn
    (s := a) ⟨fun _ _ => rfl, fun p hle hp => by rw [le_antisymm hle hp.le], fun _ => le_rfl⟩
  · obtain ⟨hoff, hpath, hroot⟩ := hend
    exact ⟨fun p hp => hoff p (Or.inr hp), fun p hp => hpath p hp.1 hp, hroot rfl⟩
  · intro c s hge hc hs
    obtain ⟨hoff, hpath, -⟩ := hs
    have hparent : s (c / 2) = a (c / 2) := hoff _ (Or.inl (by omega))
    refine ⟨?_, ?_, ?_⟩
    · intro p hp
      have hne : p ≠ c ∧ p ≠ c / 2 := by
        rcases hp with hlt | hnot
        · omega
        · exact ⟨fun h => hnot (h ▸ hc), fun h => hnot (h ▸ hc.half hge)⟩
      rw [compareExchange_of_ne s hne.1 hne.2]
      apply hoff
      rcases hp with hlt | hnot
      · exact Or.inl (by omega)
      · exact Or.inr hnot
    · intro p hle hp
      rw [compareExchange_parent key]
      rcases eq_or_ne p c with rfl | hne
      · rw [compareExchange_child key]
        exact min_le_max
      · rcases eq_or_ne p (c / 2) with rfl | hne'
        · rw [compareExchange_parent key]
        · have hcp : c < p := by
            by_contra hnot
            exact absurd (hp.le_half hc (by omega)) (by omega)
          rw [compareExchange_of_ne s hne hne']
          exact (min_le_left _ _).trans (hpath p hcp.le hp)
    · intro hone
      have hmin := compareExchange_parent key s c (c / 2)
      rw [hparent, hone] at hmin
      rw [hone, hmin]
      exact min_le_right _ _

/-- A climb from a cell added at the end keeps the root the least. -/
theorem climb_rootMin {a : Nat → α} {n : Nat} (h : RootMin key a n) :
    RootMin key (climb (fun c p s => compareExchange key s c p) (n + 1) a) (n + 1) := by
  obtain ⟨hoff, hpath, hroot⟩ := climb_root key a (Nat.le_add_left 1 n)
  intro i hpos hi
  by_cases hp : Ancestor i (n + 1)
  · exact hpath i hp
  · rw [hoff i hp]
    have hne : i ≠ n + 1 := by
      rintro rfl
      exact hp (Ancestor.self hpos)
    exact hroot.trans (h i hpos (by omega))

/-- Every cell has a leaf below it. -/
theorem exists_leaf {n p : Nat} (hpos : 1 ≤ p) (hle : p ≤ n) :
    ∃ leaf, n / 2 < leaf ∧ leaf ≤ n ∧ Ancestor p leaf := by
  induction hk : n - p using Nat.strong_induction_on generalizing p with
  | _ k ih =>
      rcases Nat.lt_or_ge (n / 2) p with hlt | hge
      · exact ⟨p, hlt, hle, Ancestor.self hpos⟩
      · obtain ⟨leaf, hlt, hleaf, hanc⟩ := ih (n - 2 * p) (by omega) (p := 2 * p) (by omega)
          (by omega) rfl
        refine ⟨leaf, hlt, hleaf, ?_⟩
        have hhalf := hanc.half (by omega)
        rwa [Nat.mul_div_cancel_left p Nat.two_pos] at hhalf

/-- Climbing from every leaf brings the least entry to the root, whatever the order was. -/
theorem climbLeaves_rootMin (a : Nat → α) (n : Nat) :
    RootMin key (Loop.forRange (n / 2 + 1) (n + 1)
      (fun i s => climb (fun c p s => compareExchange key s c p) i s) a) n := by
  have hend := @Loop.forRange_inv _ (climb fun c p s => compareExchange key s c p) a (n / 2 + 1) (n + 1)
    (fun i s => ∀ p leaf, n / 2 < leaf → leaf < i → Ancestor p leaf → key (s 1) ≤ key (s p))
    (by omega) (fun p leaf hlt hi => absurd hi (by omega)) ?_
  · intro p hpos hle
    obtain ⟨leaf, hlt, hleaf, hanc⟩ := exists_leaf hpos hle
    exact hend p leaf hlt (Nat.lt_succ_of_le hleaf) hanc
  · intro i s hge hi hs p leaf hlt hleaf hanc
    obtain ⟨hoff, hpath, hroot⟩ := climb_root key s (n := i) (by omega)
    by_cases hp : Ancestor p i
    · exact hpath p hp
    · have hne : leaf ≠ i := by
        rintro rfl
        exact hp hanc
      rw [hoff p hp]
      exact hroot.trans (hs p leaf hlt (by omega) hanc)

theorem items_climbLeaves (a : Nat → α) (n : Nat) :
    items (Loop.forRange (n / 2 + 1) (n + 1)
      (fun i s => climb (fun c p s => compareExchange key s c p) i s) a) n = items a n := by
  apply Loop.forRange_inv (fun _ s => items s n = items a n) (by omega) rfl
  intro i s hge hi hs
  rw [items_climb s (by omega) (by omega), hs]

end BinaryHeap
