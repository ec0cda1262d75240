import Prac.Lib.BinaryHeap

/-!
# Climbing from every leaf once

The root of a heap is replaced, and then one climb starts at each leaf, in the order of the cells.  A climb moves
an entry down by one level only: from the last cell of its path that an entry has come down to.

* `turn` — the climb with which an entry can come down to a cell; `exists_turn_eq` — each climb has such a cell.
* `Passed` — the array after some of the climbs: the other cells are as before, and the keys that can have come up
  to a cell (`Low`) are those of the root, of siblings whose turn was earlier and of children.
* `climbLeaves_ordered_iff` — the result is a heap exactly if the cells without a turn have large enough keys
  (`Settled`).
-/

namespace BinaryHeap

open Loop

/-- The ancestors of a cell can be listed. -/
instance Ancestor.instDecidable (p n : Nat) : Decidable (Ancestor p n) :=
  decidable_of_iff (1 ≤ n ∧ ∃ j, j ≤ Nat.log2 n ∧ p = pathNode n j) <| by
    constructor
    · rintro ⟨hn, hj⟩
      exact (ancestor_iff_pathNode hn).mpr hj
    · intro h
      have hn : 1 ≤ n := h.1.trans h.le
      exact ⟨hn, (ancestor_iff_pathNode hn).mp h⟩

theorem Ancestor.trans_half {p c n : Nat} (hp : Ancestor p n) (hc : Ancestor c n) (hlt : p < c) :
    Ancestor p (c / 2) := by
  obtain ⟨hpos, t, rfl⟩ := hp
  obtain ⟨hcpos, u, rfl⟩ := hc
  have htu : u < t := by
    by_contra hle
    exact absurd (Nat.div_le_div_left (Nat.pow_le_pow_right Nat.two_pos (not_lt.mp hle))
      (Nat.two_pow_pos t)) (not_le.mpr hlt)
  refine ⟨hpos, t - (u + 1), ?_⟩
  rw [Nat.div_div_eq_div_mul n (2 ^ u) 2, ← Nat.pow_succ, Nat.div_div_eq_div_mul, ← Nat.pow_add,
    Nat.add_sub_cancel' htu]

theorem Ancestor.of_half {p c : Nat} (h : Ancestor p (c / 2)) : Ancestor p c := by
  obtain ⟨hpos, t, rfl⟩ := h
  refine ⟨hpos, t + 1, ?_⟩
  rw [Nat.div_div_eq_div_mul, ← Nat.pow_succ']

/-! ## Turns -/

/-- The other child of the parent. -/
def sibling (v : Nat) : Nat := if v % 2 = 0 then v + 1 else v - 1

theorem sibling_half (v : Nat) : sibling v / 2 = v / 2 := by
  unfold sibling
  split <;> omega

theorem eq_sibling {v w : Nat} (hhalf : w / 2 = v / 2) (hne : w ≠ v) : w = sibling v := by
  unfold sibling
  split <;> omega

theorem two_le_sibling {v : Nat} (h : 2 ≤ v) : 2 ≤ sibling v := by
  unfold sibling
  split <;> omega

theorem exists_turn (n s v : Nat) : ∃ i, s < i ∧ (n < i ∨ Ancestor v i) :=
  ⟨max s n + 1, by omega, .inl (by omega)⟩

/-- The first climb through the cell after the turn of its parent; more than `n` if there is none.  The root has
its turn before the first climb. -/
def turn (n v : Nat) : Nat :=
  if 2 ≤ v then Nat.find (exists_turn n (turn n (v / 2)) v) else n / 2
termination_by v
decreasing_by omega

theorem turn_one (n : Nat) : turn n 1 = n / 2 := by
  rw [turn, if_neg (by omega)]

section Turn

variable {n v : Nat} (hv : 2 ≤ v)
include hv

theorem turn_spec : turn n (v / 2) < turn n v ∧ (n < turn n v ∨ Ancestor v (turn n v)) := by
  have heq : turn n v = Nat.find (exists_turn n (turn n (v / 2)) v) := by
    rw [turn, if_pos hv]
  rw [heq]
  exact Nat.find_spec (exists_turn n (turn n (v / 2)) v)

theorem turn_half_lt : turn n (v / 2) < turn n v := (turn_spec hv).1

theorem turn_le {i : Nat} (hlt : turn n (v / 2) < i) (hi : n < i ∨ Ancestor v i) : turn n v ≤ i := by
  have heq : turn n v = Nat.find (exists_turn n (turn n (v / 2)) v) := by
    rw [turn, if_pos hv]
  rw [heq]
  exact Nat.find_min' _ ⟨hlt, hi⟩

theorem ancestor_turn (hle : turn n v ≤ n) : Ancestor v (turn n v) :=
  (turn_spec hv).2.resolve_left (not_lt.mpr hle)

theorem le_of_turn_le (hle : turn n v ≤ n) : v ≤ n := (ancestor_turn hv hle).le.trans hle

end Turn

/-- A cell with an earlier turn than its sibling has one. -/
theorem turn_sibling_le {n v : Nat} (hv : 2 ≤ v) (hlt : turn n (sibling v) < turn n v) : turn n (sibling v) ≤ n := by
  by_contra hn
  have hhalf := turn_half_lt (n := n) (two_le_sibling hv)
  rw [sibling_half] at hhalf
  exact absurd (turn_le hv hhalf (.inl (not_le.mp hn))) (not_le.mpr hlt)

/-- Along a path the turns increase. -/
theorem turn_lt_of_ancestor {n p c : Nat} (h : Ancestor p c) (hlt : p < c) : turn n p < turn n c := by
  induction c using Nat.strong_induction_on with
  | _ c ih =>
      have hge : 2 ≤ c := by
        have := h.1
        omega
      have hp := h.trans_half (Ancestor.self (by omega)) hlt
      rcases Nat.lt_or_ge p (c / 2) with hhalf | hhalf
      · exact (ih (c / 2) (by omega) hp hhalf).trans (turn_half_lt hge)
      · rw [le_antisymm hp.le hhalf]
        exact turn_half_lt hge

/-- Different cells of a path have different turns. -/
theorem eq_of_turn_eq {n v w i : Nat} (hv : Ancestor v i) (hw : Ancestor w i) (heq : turn n v = turn n w) : v = w := by
  rcases lt_trichotomy v w with hlt | heq' | hgt
  · have hanc := (hv.trans_half hw hlt).of_half
    exact absurd heq (turn_lt_of_ancestor hanc hlt).ne
  · exact heq'
  · have hanc := (hw.trans_half hv hgt).of_half
    exact absurd heq (turn_lt_of_ancestor hanc hgt).ne'

/-- Different cells have different turns. -/
theorem eq_of_turn {n v w : Nat} (hv : 2 ≤ v) (hw : 2 ≤ w) (hle : turn n v ≤ n) (heq : turn n v = turn n w) : v = w :=
  eq_of_turn_eq (ancestor_turn hv hle) (heq ▸ ancestor_turn hw (heq ▸ hle)) heq

/-- Every climb is the turn of a cell. -/
theorem exists_turn_eq {n i : Nat} (hge : 2 ≤ i) (hi : n / 2 < i) (hn : i ≤ n) :
    ∃ w, 2 ≤ w ∧ Ancestor w i ∧ turn n w = i := by
  suffices hpath : ∀ c, Ancestor c i → i ≤ turn n c → ∃ w, 2 ≤ w ∧ Ancestor w i ∧ turn n w = i by
    apply hpath i (Ancestor.self (by omega))
    rcases (turn_spec (n := n) hge).2 with hlt | hanc
    · exact hn.trans hlt.le
    · exact hanc.le
  intro c
  induction c using Nat.strong_induction_on with
  | _ c ih =>
      intro hc hturn
      rcases Nat.lt_or_ge c 2 with hlt | hc2
      · have hone : c = 1 := by
          have := hc.1
          omega
        rw [hone, turn_one] at hturn
        omega
      · rcases hturn.eq_or_lt with heq | hlt
        · exact ⟨c, hc2, hc, heq.symm⟩
        · apply ih (c / 2) (by omega) (hc.half hc2)
          by_contra hhalf
          exact absurd (turn_le hc2 (not_le.mp hhalf) (.inr hc)) (not_le.mpr hlt)

/-! ## The array after some climbs -/

section Passes

variable {α β : Type*} [LinearOrder β] (key : α → β)

/-- Some key that can reach `v` from above is at most `θ`: that of the root, or one that went up from a sibling of
`v` or of an ancestor with an earlier turn. -/
def Offered (a : Nat → α) (n v : Nat) (θ : β) : Prop :=
  key (a 1) ≤ θ ∨ ∃ c, 2 ≤ c ∧ Ancestor c v ∧ turn n (sibling c) < turn n c ∧ key (a (sibling c)) ≤ θ

/-- Some key that `v` can have received by the climb from `j`, from above or from a child, is at most `θ`. -/
def Low (a : Nat → α) (n j v : Nat) (θ : β) : Prop :=
  Offered key a n v θ ∨ ∃ w, 2 ≤ w ∧ w / 2 = v ∧ turn n w ≤ j ∧ key (a w) ≤ θ

/-- The array `s` after the climbs up to the one from `j`, from the array `a`. -/
structure Passed (a : Nat → α) (n j : Nat) (s : Nat → α) : Prop where
  before : ∀ v, 2 ≤ v → j < turn n v → s v = a v
  ge : ∀ v, 2 ≤ v → v ≤ n → key (a v) ≤ key (s v)
  low : ∀ v, 1 ≤ v → turn n v ≤ j → ∀ θ, (2 ≤ v → key (a v) ≤ θ) → (key (s v) ≤ θ ↔ Low key a n j v θ)

variable {key}

theorem half_lt_turn {n v : Nat} (hv : 2 ≤ v) : n / 2 < turn n v := by
  rw [← turn_one n]
  refine turn_lt_of_ancestor ⟨le_rfl, Nat.log2 v, ?_⟩ hv
  exact (Nat.div_eq_of_lt_le (by rw [Nat.one_mul]; exact Nat.log2_self_le (by omega))
    (by rw [← Nat.pow_succ']; exact Nat.lt_log2_self)).symm

variable (key) in
theorem Passed.init (a : Nat → α) (n : Nat) : Passed key a n (n / 2) a := by
  refine ⟨fun _ _ _ => rfl, fun _ _ _ => le_rfl, fun v hv hturn θ _ => ?_⟩
  have hone : v = 1 := by
    by_contra hne
    exact absurd (half_lt_turn (n := n) (by omega : 2 ≤ v)) (not_lt.mpr hturn)
  subst hone
  constructor
  · exact fun hroot => .inl (.inl hroot)
  · rintro ((hroot | ⟨c, hc, hanc, _⟩) | ⟨w, hw, _, hturn, _⟩)
    · exact hroot
    · exact absurd hanc.le (by omega)
    · exact absurd (half_lt_turn hw) (not_lt.mpr hturn)

/-- What is offered to a cell is what its parent has received before. -/
theorem low_half {a : Nat → α} {n j v : Nat} (hv : 2 ≤ v) (hj : j < turn n v)
    (hsibling : turn n (sibling v) < turn n v → turn n (sibling v) ≤ j) {θ : β} :
    Low key a n j (v / 2) θ ↔ Offered key a n v θ := by
  constructor
  · rintro ((hroot | ⟨c, hc, hanc, hlt, hkey⟩) | ⟨u, hu, hhalf, hle, hkey⟩)
    · exact .inl hroot
    · exact .inr ⟨c, hc, hanc.of_half, hlt, hkey⟩
    · have hne : u ≠ v := by
        rintro rfl
        omega
      obtain rfl := eq_sibling hhalf hne
      exact .inr ⟨v, hv, Ancestor.self (by omega), by omega, hkey⟩
  · rintro (hroot | ⟨c, hc, hanc, hlt, hkey⟩)
    · exact .inl (.inl hroot)
    · rcases hanc.le.eq_or_lt with rfl | hcv
      · exact .inr ⟨sibling c, two_le_sibling hc, sibling_half c, hsibling hlt, hkey⟩
      · exact .inl (.inr ⟨c, hc, hanc.trans_half (Ancestor.self (by omega)) hcv, hlt, hkey⟩)

section Step

variable {a s : Nat → α} {n j w : Nat} (hw : 2 ≤ w) (hturn : turn n w = j + 1)
include hw hturn

/-- The next climb adds the key of the cell that has its turn. -/
theorem low_succ (hjn : j + 1 ≤ n) {v : Nat} {θ : β} :
    Low key a n (j + 1) v θ ↔ Low key a n j v θ ∨ w / 2 = v ∧ key (a w) ≤ θ := by
  constructor
  · rintro (hoffered | ⟨u, hu, hhalf, hle, hkey⟩)
    · exact .inl (.inl hoffered)
    · rcases Nat.lt_succ_iff_lt_or_eq.mp (Nat.lt_succ_of_le hle) with hlt | heq
      · exact .inl (.inr ⟨u, hu, hhalf, Nat.le_of_lt_succ hlt, hkey⟩)
      · obtain rfl := eq_of_turn hu hw (heq.trans_le hjn) (heq.trans hturn.symm)
        exact .inr ⟨hhalf, hkey⟩
  · rintro ((hoffered | ⟨u, hu, hhalf, hle, hkey⟩) | ⟨hhalf, hkey⟩)
    · exact .inl hoffered
    · exact .inr ⟨u, hu, hhalf, hle.trans (Nat.le_succ j), hkey⟩
    · exact .inr ⟨w, hw, hhalf, hturn.le, hkey⟩

/-- What the cell that has its turn has received is what its parent had. -/
theorem low_turn {θ : β} : Low key a n (j + 1) w θ ↔ Low key a n j (w / 2) θ := by
  rw [low_half hw (by omega) (by omega)]
  apply or_iff_left
  rintro ⟨u, hu, hhalf, hle, _⟩
  have hhalf_lt := turn_half_lt (n := n) hu
  rw [hhalf] at hhalf_lt
  omega

/-- The exchange of the cell that has its turn with its parent. -/
theorem Passed.exchange (hjn : j + 1 ≤ n) (h : Passed key a n j s) (hord : OrderedBelow key a (n + 1) 1) :
    Passed key a n (j + 1) (compareExchange key s w (w / 2)) := by
  have hwn : w ≤ n := le_of_turn_le hw (hturn.trans_le hjn)
  have hparent : turn n (w / 2) < j + 1 := hturn ▸ turn_half_lt hw
  have hself : s w = a w := h.before w hw (by omega)
  have hle : 2 ≤ w / 2 → key (a (w / 2)) ≤ key (a w) := fun hp => hord.off w hw (by omega) (by omega)
  refine ⟨fun v hv hlt => ?_, fun v hv hvn => ?_, fun v hv hvturn θ hθ => ?_⟩
  · have hvw : v ≠ w := by
      rintro rfl
      omega
    have hvp : v ≠ w / 2 := by
      rintro rfl
      omega
    rw [compareExchange_of_ne s hvw hvp]
    exact h.before v hv (by omega)
  · rcases eq_or_ne v w with rfl | hvw
    · rw [compareExchange_child key, hself]
      exact le_max_left _ _
    · rcases eq_or_ne v (w / 2) with rfl | hvp
      · rw [compareExchange_parent key, hself]
        exact le_min (hle hv) (h.ge _ hv hvn)
      · rw [compareExchange_of_ne s hvw hvp]
        exact h.ge v hv hvn
  · rcases eq_or_ne v w with rfl | hvw
    · have hθw := hθ hw
      rw [compareExchange_child key, hself, max_le_iff, low_turn hw hturn]
      apply (and_iff_right hθw).trans
      exact h.low (v / 2) (by omega) (by omega) θ fun hp => (hle hp).trans hθw
    · rcases eq_or_ne v (w / 2) with rfl | hvp
      · rw [compareExchange_parent key, hself, min_le_iff, low_succ hw hturn hjn, or_comm]
        exact or_congr (h.low _ hv (by omega) θ hθ) (and_iff_right rfl).symm
      · have hvj : turn n v ≤ j := by
          by_contra hnot
          have heq : turn n v = j + 1 := by omega
          have hv2 : 2 ≤ v := by
            by_contra hone
            rw [(by omega : v = 1), turn_one] at heq
            have := half_lt_turn (n := n) hw
            omega
          exact hvw (eq_of_turn hv2 hw (heq.trans_le hjn) (heq.trans hturn.symm))
        rw [compareExchange_of_ne s hvw hvp, low_succ hw hturn hjn, h.low v hv hvj θ hθ]
        exact (or_iff_left fun hhalf => hvp hhalf.1.symm).symm

/-- The climb from a leaf exchanges once. -/
theorem Passed.climb_eq (hjn : j + 1 ≤ n) (h : Passed key a n j s) (hord : OrderedBelow key a (n + 1) 1)
    (hanc : Ancestor w (j + 1)) :
    climb (fun c p s => compareExchange key s c p) (j + 1) s = compareExchange key s w (w / 2) := by
  have h' := h.exchange hw hturn hjn hord
  obtain ⟨s', hs'⟩ : ∃ s', s' = compareExchange key s w (w / 2) := ⟨_, rfl⟩
  rw [← hs'] at h' ⊢
  have hroot : turn n 1 < j + 1 := turn_one n ▸ hturn ▸ half_lt_turn hw
  have hstart : j + 1 ≤ turn n (j + 1) := by
    rcases (turn_spec (n := n) (hw.trans hanc.le)).2 with hlt | hself
    · exact hjn.trans hlt.le
    · exact hself.le
  have hend := climb_inv (fun c p (s : Nat → α) => compareExchange key s c p)
    (fun c st => st = if j + 1 ≤ turn n c then s else s') (n := j + 1) ?_ (Nat.le_add_left 1 j)
    (if_pos hstart).symm
  · rw [hend, if_neg (not_le.mpr hroot)]
  · rintro c st hc hcanc rfl
    have hcn : c ≤ n := hcanc.le.trans hjn
    rcases lt_trichotomy (turn n c) (j + 1) with hlt | heq | hgt
    · -- above the exchange: the parent has taken what this cell was once
      have hhalf : turn n (c / 2) < j + 1 := (turn_half_lt hc).trans hlt
      rw [if_neg (not_le.mpr hlt), if_neg (not_le.mpr hhalf)]
      have hkey : key (s' (c / 2)) ≤ key (s' c) := by
        have hge := h'.ge c hc hcn
        refine (h'.low (c / 2) (by omega) hhalf.le _ fun hp => ?_).mpr (.inr ⟨c, hc, rfl, hlt.le, hge⟩)
        exact (hord.off c hc (by omega) (by omega)).trans hge
      exact if_neg (not_lt.mpr hkey)
    · have hcw : c = w := eq_of_turn_eq hcanc hanc (heq.trans hturn.symm)
      subst hcw
      rw [if_pos heq.ge, if_neg (not_le.mpr (heq ▸ turn_half_lt hc))]
      exact hs'.symm
    · -- below the exchange: nothing has changed
      have hhalf : j + 1 ≤ turn n (c / 2) := by
        by_contra hnot
        exact absurd (turn_le hc (not_le.mp hnot) (.inr hcanc)) (not_le.mpr hgt)
      have hp : 2 ≤ c / 2 := by
        by_contra hone
        rw [(by omega : c / 2 = 1)] at hhalf
        omega
      rw [if_pos hgt.le, if_pos hhalf]
      have hkey : key (s (c / 2)) ≤ key (s c) := by
        rw [h.before c hc (by omega), h.before (c / 2) hp (by omega)]
        exact hord.off c hc (by omega) (by omega)
      exact if_neg (not_lt.mpr hkey)

end Step

/-- After all climbs. -/
theorem climbLeaves_passed {a : Nat → α} {n : Nat} (hn : 2 ≤ n) (hord : OrderedBelow key a (n + 1) 1) :
    Passed key a n n (forRange (n / 2 + 1) (n + 1)
      (fun i s => climb (fun c p s => compareExchange key s c p) i s) a) := by
  have hend := @forRange_inv _ (climb fun c p (s : Nat → α) => compareExchange key s c p) a (n / 2 + 1) (n + 1)
    (fun i s => Passed key a n (i - 1) s) (by omega) (Passed.init key a n) ?_
  · exact hend
  · intro i s hi hin h
    obtain ⟨j, rfl⟩ : ∃ j, i = j + 1 := ⟨i - 1, by omega⟩
    obtain ⟨w, hw, hanc, hturn⟩ := exists_turn_eq (n := n) (by omega) hi (by omega)
    rw [Nat.add_sub_cancel] at h ⊢
    rw [h.climb_eq hw hturn (by omega) hord hanc]
    exact h.exchange hw hturn (by omega) hord

variable (key) in
/-- The cells without a turn do not have smaller keys than what is offered to them. -/
def Settled (a : Nat → α) (n : Nat) : Prop :=
  ∀ v, 2 ≤ v → v ≤ n → n < turn n v → Offered key a n v (key (a v))

/-- **Climbing from every leaf once restores heap order exactly if the cells without a turn are settled.** -/
theorem climbLeaves_ordered_iff {a : Nat → α} {n : Nat} (hord : OrderedBelow key a (n + 1) 1) :
    Ordered key (forRange (n / 2 + 1) (n + 1)
      (fun i s => climb (fun c p s => compareExchange key s c p) i s) a) (n + 1) ↔ Settled key a n := by
  rcases Nat.lt_or_ge n 2 with hlt | hn
  · exact ⟨fun _ v hv hvn => absurd hvn (by omega), fun _ v hv hvn => absurd hvn (by omega)⟩
  have hpassed := climbLeaves_passed hn hord
  obtain ⟨s, hs⟩ : ∃ s, s = forRange (n / 2 + 1) (n + 1)
    (fun i s => climb (fun c p s => compareExchange key s c p) i s) a := ⟨_, rfl⟩
  rw [← hs] at hpassed ⊢
  have hroot : turn n 1 ≤ n := turn_one n ▸ Nat.div_le_self n 2
  have hparent : ∀ v, 2 ≤ v → v ≤ n → 2 ≤ v / 2 → key (a (v / 2)) ≤ key (a v) := fun v hv hvn hp =>
    hord.off v hv (by omega) (by omega)
  -- at the end of the way down the new entry has met only some of the children
  have hlast : ∀ v, 2 ≤ v → v ≤ n → n < turn n v → turn n (v / 2) ≤ n →
      (key (s (v / 2)) ≤ key (s v) ↔ Offered key a n v (key (a v))) := by
    intro v hv hvn hturn hhalf
    rw [hpassed.before v hv hturn, ← low_half hv hturn (turn_sibling_le hv)]
    exact hpassed.low (v / 2) (by omega) hhalf _ (hparent v hv hvn)
  constructor
  · intro h v hv hvn hturn
    induction v using Nat.strong_induction_on with
    | _ v ih =>
        rcases Nat.lt_or_ge n (turn n (v / 2)) with hlt | hle
        · have hp : 2 ≤ v / 2 := by
            by_contra hone
            rw [(by omega : v / 2 = 1)] at hlt
            omega
          have hkey := hparent v hv hvn hp
          rcases ih (v / 2) (by omega) hp (by omega) hlt with hroot | ⟨c, hc, hanc, hlt, hc'⟩
          · exact .inl (hroot.trans hkey)
          · exact .inr ⟨c, hc, hanc.of_half, hlt, hc'.trans hkey⟩
        · exact (hlast v hv hvn hturn hle).mp (h v hv (by omega))
  · intro h v hv hvn
    have hvn : v ≤ n := Nat.le_of_lt_succ hvn
    rcases Nat.lt_or_ge n (turn n v) with hturn | hturn
    · rcases Nat.lt_or_ge n (turn n (v / 2)) with hlt | hle
      · have hp : 2 ≤ v / 2 := by
          by_contra hone
          rw [(by omega : v / 2 = 1)] at hlt
          omega
        rw [hpassed.before v hv hturn, hpassed.before (v / 2) hp hlt]
        exact hparent v hv hvn hp
      · exact (hlast v hv hvn hturn hle).mpr (h v hv hvn hturn)
    · have hge := hpassed.ge v hv hvn
      have hhalf := ((turn_half_lt (n := n) hv).trans_le hturn).le
      refine (hpassed.low (v / 2) (by omega) hhalf _ fun hp => (hparent v hv hvn hp).trans hge).mpr ?_
      exact .inr ⟨v, hv, rfl, hturn, hge⟩

end Passes

end BinaryHeap
