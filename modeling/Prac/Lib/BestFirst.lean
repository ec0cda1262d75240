import Mathlib.Data.Finset.Card
import Mathlib.Data.List.Sort
import Mathlib.Data.Multiset.Filter

/-!
# Best-first search in a binary tree

The nodes are numbered as in an array heap: the root is 1, and `i` has the children `2 * i` and
`2 * i + 1`.  A search takes the root first, and then always a least node among those whose parent has
been taken.

* `frontier`, `Search` — the nodes that may be taken next, and the runs of the search.
* `Region` — a finite part of the tree in heap order; `SortedValues` — its values as a sorted list.
* `Contained` — no child outside the region of a node that has been taken is below a bound.
* `Search.eq_take_iff` — the next value makes the values so far the least of the region, in order,
  exactly if the search is contained by it.
-/

namespace BestFirst

/-! ## The frontier -/

/-- The nodes that have not been taken, but whose parents have. -/
def frontier (P : Finset Nat) : Finset Nat := (P.image (2 * ·) ∪ P.image (2 * · + 1)) \ P

@[simp] theorem mem_frontier {P : Finset Nat} {i : Nat} : i ∈ frontier P ↔ i / 2 ∈ P ∧ i ∉ P := by
  unfold frontier
  rw [Finset.mem_sdiff, Finset.mem_union, Finset.mem_image, Finset.mem_image]
  refine and_congr_left fun _ => ⟨?_, ?_⟩
  · rintro (⟨j, hj, rfl⟩ | ⟨j, hj, rfl⟩)
    · rwa [Nat.mul_div_cancel_left j Nat.two_pos]
    · rwa [(by omega : (2 * j + 1) / 2 = j)]
  · intro hi
    rcases (by omega : 2 * (i / 2) = i ∨ 2 * (i / 2) + 1 = i) with heq | heq
    · exact Or.inl ⟨i / 2, hi, heq⟩
    · exact Or.inr ⟨i / 2, hi, heq⟩

/-- Taking a node of the frontier replaces it by its children. -/
theorem frontier_insert {P : Finset Nat} {i : Nat} (hpos : 1 ≤ i) (hi : i ∈ frontier P)
    (hclosed : ∀ j ∈ P, 2 ≤ j → j / 2 ∈ P) :
    (frontier (insert i P)).val = (2 * i) ::ₘ (2 * i + 1) ::ₘ (frontier P).val.erase i := by
  obtain ⟨-, hiP⟩ := mem_frontier.mp hi
  have hchild : ∀ c, c / 2 = i → c ∉ P := by
    rintro c rfl hc
    exact hiP (hclosed c hc (by omega))
  have hset : frontier (insert i P) =
      insert (2 * i) (insert (2 * i + 1) ((frontier P).erase i)) := by
    ext c
    simp only [mem_frontier, Finset.mem_insert, Finset.mem_erase, not_or]
    constructor
    · rintro ⟨hhalf | hhalf, hne, hc⟩
      · omega
      · exact Or.inr (Or.inr ⟨hne, hhalf, hc⟩)
    · rintro (rfl | rfl | ⟨hne, hhalf, hc⟩)
      · exact ⟨Or.inl (by omega), by omega, hchild _ (by omega)⟩
      · exact ⟨Or.inl (by omega), by omega, hchild _ (by omega)⟩
      · exact ⟨Or.inr hhalf, hne, hc⟩
  have hright : 2 * i + 1 ∉ (frontier P).erase i := by
    intro hc
    have hhalf := (mem_frontier.mp (Finset.mem_of_mem_erase hc)).1
    rw [(by omega : (2 * i + 1) / 2 = i)] at hhalf
    exact hiP hhalf
  have hleft : 2 * i ∉ insert (2 * i + 1) ((frontier P).erase i) := by
    intro hc
    rcases Finset.mem_insert.mp hc with heq | hc
    · omega
    · have hhalf := (mem_frontier.mp (Finset.mem_of_mem_erase hc)).1
      rw [Nat.mul_div_cancel_left i Nat.two_pos] at hhalf
      exact hiP hhalf
  rw [hset, Finset.insert_val_of_notMem hleft, Finset.insert_val_of_notMem hright, Finset.erase_val]

variable {β : Type*} [LinearOrder β]

/-! ## Runs of the search -/

/-- The runs: the set of the nodes taken, and their values in order. -/
inductive Search (val : Nat → β) : Finset Nat → List β → Prop where
  | root : Search val {1} [val 1]
  | pop {P : Finset Nat} {outs : List β} {i : Nat} (taken : Search val P outs)
      (next : i ∈ frontier P) (least : ∀ j ∈ frontier P, val i ≤ val j) :
      Search val (insert i P) (outs ++ [val i])

namespace Search

variable {val : Nat → β} {P : Finset Nat} {outs : List β}

theorem closed (h : Search val P outs) :
    1 ∈ P ∧ (∀ j ∈ P, 1 ≤ j) ∧ ∀ j ∈ P, 2 ≤ j → j / 2 ∈ P := by
  induction h with
  | root =>
      refine ⟨Finset.mem_singleton_self 1, ?_, ?_⟩
      · intro j hj
        exact (Finset.mem_singleton.mp hj).ge
      · intro j hj hge
        have := Finset.mem_singleton.mp hj
        omega
  | @pop P outs i taken next least ih =>
      obtain ⟨hroot, hpos, hparent⟩ := ih
      have hhalf := (mem_frontier.mp next).1
      refine ⟨Finset.mem_insert_of_mem hroot, ?_, ?_⟩
      · intro j hj
        rcases Finset.mem_insert.mp hj with rfl | hj
        · have := hpos _ hhalf
          omega
        · exact hpos j hj
      · intro j hj hge
        apply Finset.mem_insert_of_mem
        rcases Finset.mem_insert.mp hj with rfl | hj
        · exact hhalf
        · exact hparent j hj hge

theorem values (h : Search val P outs) : P.val.map val = (outs : Multiset β) := by
  induction h with
  | root => rfl
  | @pop P outs i taken next least ih =>
      rw [Finset.insert_val_of_notMem (mem_frontier.mp next).2, Multiset.map_cons, ih,
        ← Multiset.coe_add, Multiset.coe_singleton, Multiset.add_comm, Multiset.singleton_add]

theorem card (h : Search val P outs) : P.card = outs.length := by
  have hcard := congrArg Multiset.card h.values
  rwa [Multiset.card_map, Finset.card_val, Multiset.coe_card] at hcard

end Search

/-! ## Regions -/

/-- A finite part of the tree in heap order. -/
structure Region (val : Nat → β) (D : Finset Nat) : Prop where
  pos : ∀ i ∈ D, 1 ≤ i
  parent : ∀ i ∈ D, 2 ≤ i → i / 2 ∈ D
  ordered : ∀ i ∈ D, 2 ≤ i → val (i / 2) ≤ val i

/-- The root is in the region, with a least value. -/
theorem Region.root {val : Nat → β} {D : Finset Nat} (h : Region val D) {i : Nat} (hi : i ∈ D) :
    1 ∈ D ∧ val 1 ≤ val i := by
  induction i using Nat.strong_induction_on with
  | _ i ih =>
      rcases Nat.lt_or_ge i 2 with hlt | hge
      · have : i = 1 := by
          have := h.pos i hi
          omega
        exact this ▸ ⟨hi, le_rfl⟩
      · obtain ⟨hone, hle⟩ := ih (i / 2) (by omega) (h.parent i hi hge)
        exact ⟨hone, hle.trans (h.ordered i hi hge)⟩

/-- The values of a region, sorted. -/
structure SortedValues (val : Nat → β) (D : Finset Nat) (L : List β) : Prop where
  values : D.val.map val = (L : Multiset β)
  sorted : L.Pairwise (· ≤ ·)

/-- No child outside the region of a node in `P` is below `v`. -/
def Contained (val : Nat → β) (D : Finset Nat) (v : β) (P : Finset Nat) : Prop :=
  ∀ c, c / 2 ∈ P → c ∉ D → v ≤ val c

variable {val : Nat → β} {D P : Finset Nat} {L outs : List β} {v : β}

/-- Above a node of the region that has not been taken there is one in the frontier. -/
theorem Region.exists_frontier (hD : Region val D) (hroot : 1 ∈ P) {d : Nat} (hd : d ∈ D)
    (hdP : d ∉ P) : ∃ a ∈ frontier P, val a ≤ val d := by
  induction d using Nat.strong_induction_on with
  | _ d ih =>
      have hge : 2 ≤ d := by
        have hpos := hD.pos d hd
        have hne : d ≠ 1 := by
          rintro rfl
          exact hdP hroot
        omega
      by_cases hhalf : d / 2 ∈ P
      · exact ⟨d, mem_frontier.mpr ⟨hhalf, hdP⟩, le_rfl⟩
      · obtain ⟨a, ha, hle⟩ := ih (d / 2) (by omega) (hD.parent d hd hge) hhalf
        exact ⟨a, ha, hle.trans (hD.ordered d hd hge)⟩

/-- The nodes with a value below `v`. -/
def lower (val : Nat → β) (v : β) (S : Finset Nat) : Finset Nat := S.filter fun i => val i < v

@[simp] theorem mem_lower {S : Finset Nat} {i : Nat} : i ∈ lower val v S ↔ i ∈ S ∧ val i < v :=
  Finset.mem_filter

theorem card_lower {S : Finset Nat} {l : List β} (h : S.val.map val = (l : Multiset β)) :
    (lower val v S).card = l.countP fun x => decide (x < v) := by
  have hcount := congrArg (Multiset.countP (· < v)) h
  rw [Multiset.countP_map, Multiset.coe_countP] at hcount
  exact hcount

/-- In a sorted list, whatever is below entry `n` stands before it. -/
theorem SortedValues.countP_take (h : SortedValues val D L) {n : Nat} (hv : L[n]? = some v) :
    (L.take n).countP (fun x => decide (x < v)) = L.countP fun x => decide (x < v) := by
  obtain ⟨hn, rfl⟩ := List.getElem?_eq_some_iff.mp hv
  have hdrop : (L.drop n).countP (fun x => decide (x < L[n])) = 0 := by
    rw [List.countP_eq_zero]
    intro x hx
    obtain ⟨i, hi, rfl⟩ := List.mem_iff_getElem.mp hx
    rw [List.getElem_drop, decide_eq_true_eq, not_lt]
    exact h.sorted.sortedLE.getElem_le_getElem_of_le (Nat.le_add_right n i)
  have hsplit := @List.countP_append _ (fun x => decide (x < L[n])) (L.take n) (L.drop n)
  rw [List.take_append_drop, hdrop, Nat.add_zero] at hsplit
  exact hsplit.symm

/-- Entry `n` of the sorted list has more than `n` values up to it. -/
theorem SortedValues.exists_not_mem (h : SortedValues val D L) {n : Nat} (hv : L[n]? = some v)
    (hcard : P.card = n) : ∃ d ∈ D, d ∉ P ∧ val d ≤ v := by
  by_contra hnot
  have hsub : (D.filter fun i => val i ≤ v) ⊆ P := by
    intro d hd
    obtain ⟨hdD, hle⟩ := Finset.mem_filter.mp hd
    by_contra hdP
    exact hnot ⟨d, hdD, hdP, hle⟩
  have hcount := congrArg (Multiset.countP (· ≤ v)) h.values
  rw [Multiset.countP_map, Multiset.coe_countP] at hcount
  have hcard' : (D.filter fun i => val i ≤ v).card = L.countP fun x => decide (x ≤ v) := hcount
  obtain ⟨hn, rfl⟩ := List.getElem?_eq_some_iff.mp hv
  have htake : (L.take (n + 1)).countP (fun x => decide (x ≤ L[n])) = n + 1 := by
    rw [List.countP_eq_length.mpr ?_, List.length_take, min_eq_left hn]
    intro x hx
    obtain ⟨i, hi, rfl⟩ := List.mem_iff_getElem.mp hx
    rw [List.length_take] at hi
    rw [List.getElem_take, decide_eq_true_eq]
    exact h.sorted.sortedLE.getElem_le_getElem_of_le (by omega)
  have hle := @List.Sublist.countP_le _ (fun x => decide (x ≤ L[n])) _ _ (List.take_sublist (n + 1) L)
  have := Finset.card_le_card hsub
  omega

theorem SortedValues.length (h : SortedValues val D L) : L.length = D.card := by
  have hcard := congrArg Multiset.card h.values
  rwa [Multiset.card_map, Finset.card_val, Multiset.coe_card, eq_comm] at hcard

/-! ## The search takes the least values -/

/-- A contained search that has taken the least values of the region takes the next one. -/
theorem Search.next_eq (h : Search val P outs) (hD : Region val D) (hL : SortedValues val D L)
    (hP : Contained val D v P) (houts : outs = L.take outs.length) {w : β}
    (hw : L[outs.length]? = some w) (hwv : w ≤ v) {i : Nat} (hi : i ∈ frontier P)
    (least : ∀ j ∈ frontier P, val i ≤ val j) : val i = w := by
  obtain ⟨hroot, hpos, hparent⟩ := h.closed
  apply le_antisymm
  · obtain ⟨d, hd, hdP, hle⟩ := hL.exists_not_mem hw h.card
    obtain ⟨a, ha, hale⟩ := hD.exists_frontier hroot hd hdP
    exact (least a ha).trans (hale.trans hle)
  · by_contra hlt
    have hlt := not_le.mp hlt
    obtain ⟨hhalf, hiP⟩ := mem_frontier.mp hi
    have hiD : i ∈ D := by
      by_contra hiD
      exact absurd ((hP i hhalf hiD).trans_lt (hlt.trans_le hwv)) (lt_irrefl v)
    -- the nodes below `w` that have been taken are in the region, and `i` is one more there
    have hsub : insert i (lower val w P) ⊆ lower val w D := by
      intro p hp
      rcases Finset.mem_insert.mp hp with rfl | hp
      · exact mem_lower.mpr ⟨hiD, hlt⟩
      · obtain ⟨hpP, hpw⟩ := mem_lower.mp hp
        refine mem_lower.mpr ⟨?_, hpw⟩
        by_contra hpD
        rcases Nat.lt_or_ge p 2 with hone | hge
        · have : p = 1 := by
            have := hpos p hpP
            omega
          obtain ⟨a, ha, -⟩ := hL.exists_not_mem hw h.card
          exact hpD (this ▸ (hD.root ha).1)
        · exact absurd ((hP p (hparent p hpP hge) hpD).trans_lt (hpw.trans_le hwv)) (lt_irrefl v)
    have hcard := Finset.card_le_card hsub
    rw [Finset.card_insert_of_notMem (fun hmem => hiP (mem_lower.mp hmem).1), card_lower h.values,
      card_lower hL.values, houts, hL.countP_take hw] at hcard
    omega

/-- The root has the least value of the region. -/
theorem Region.take_one (hD : Region val D) (hL : SortedValues val D L) (hlen : 1 ≤ L.length) :
    [val 1] = L.take 1 := by
  obtain ⟨w, rest, rfl⟩ := List.exists_cons_of_length_pos hlen
  have hmem : w ∈ D.val.map val := by
    rw [hL.values]
    exact List.mem_cons_self
  obtain ⟨i, hi, rfl⟩ := Multiset.mem_map.mp hmem
  obtain ⟨hone, hle⟩ := hD.root hi
  have hroot : val 1 ∈ ((val i :: rest : List β) : Multiset β) :=
    hL.values ▸ Multiset.mem_map_of_mem val hone
  have heq : val 1 = val i := by
    apply le_antisymm hle
    rcases List.mem_cons.mp hroot with heq | hrest
    · exact heq.ge
    · exact List.rel_of_pairwise_cons hL.sorted hrest
  rw [heq]
  rfl

/-- A contained search takes the least values of the region, in order. -/
theorem Search.eq_take (h : Search val P outs) (hD : Region val D) (hL : SortedValues val D L)
    (hP : Contained val D v P) (hlen : outs.length ≤ L.length)
    (hv : ∀ x ∈ L.take outs.length, x ≤ v) : outs = L.take outs.length := by
  induction h with
  | root => exact hD.take_one hL hlen
  | @pop P outs i taken next least ih =>
      rw [List.length_append, List.length_singleton] at hlen hv ⊢
      obtain ⟨w, hw⟩ : ∃ w, L[outs.length]? = some w := ⟨_, List.getElem?_eq_getElem hlen⟩
      rw [List.take_add_one, hw, Option.toList_some] at hv ⊢
      have hP : Contained val D v P := fun c hc => hP c (Finset.mem_insert_of_mem hc)
      have houts := ih hP (Nat.le_of_succ_le hlen) fun x hx => hv x (List.mem_append_left _ hx)
      have hnext := taken.next_eq hD hL hP houts hw (hv w (by simp)) next least
      rw [hnext, ← houts]

/-- **Best-first search.**  The value of a least node of the frontier continues the values taken to the
least ones of the region, in order, exactly if no child outside the region is smaller. -/
theorem Search.eq_take_iff (h : Search val P outs) (hD : Region val D) (hL : SortedValues val D L)
    (hv : L[outs.length]? = some v) {i : Nat} (hi : i ∈ frontier P)
    (least : ∀ j ∈ frontier P, val i ≤ val j) :
    outs ++ [val i] = L.take (outs.length + 1) ↔ Contained val D v P := by
  rw [List.take_add_one, hv, Option.toList_some]
  obtain ⟨hlen, hget⟩ := List.getElem?_eq_some_iff.mp hv
  constructor
  · intro heq
    obtain ⟨houts, hlast⟩ := List.append_inj' heq rfl
    have hlast : val i = v := List.singleton_inj.mp hlast
    intro c hhalf hcD
    by_contra hlt
    have hlt := not_le.mp hlt
    have hcP : c ∈ P := by
      by_contra hcP
      have hle := least c (mem_frontier.mpr ⟨hhalf, hcP⟩)
      rw [hlast] at hle
      exact absurd hlt (not_lt.mpr hle)
    -- every node of the region below `v` has been taken, and `c` besides
    have hsub : insert c (lower val v D) ⊆ lower val v P := by
      intro d hd
      rcases Finset.mem_insert.mp hd with rfl | hd
      · exact mem_lower.mpr ⟨hcP, hlt⟩
      · obtain ⟨hdD, hdv⟩ := mem_lower.mp hd
        refine mem_lower.mpr ⟨?_, hdv⟩
        by_contra hdP
        obtain ⟨a, ha, hle⟩ := hD.exists_frontier h.closed.1 hdD hdP
        exact absurd hdv (not_lt.mpr (hlast ▸ (least a ha).trans hle))
    have hcard := Finset.card_le_card hsub
    rw [Finset.card_insert_of_notMem (fun hmem => hcD (mem_lower.mp hmem).1), card_lower h.values,
      card_lower hL.values, houts, hL.countP_take hv] at hcard
    omega
  · intro hP
    have houts : outs = L.take outs.length := by
      apply h.eq_take hD hL hP hlen.le
      intro x hx
      obtain ⟨j, hj, rfl⟩ := List.mem_iff_getElem.mp hx
      rw [List.length_take] at hj
      rw [List.getElem_take, ← hget]
      exact hL.sorted.sortedLE.getElem_le_getElem_of_le (by omega)
    rw [← houts, h.next_eq hD hL hP houts hv le_rfl hi least]

end BestFirst
