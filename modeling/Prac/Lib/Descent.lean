import Prac.Lib.Rebalance

/-!
# Descents of a fixed number of steps

* `LinkedTree.path` — the nodes on a path down a tree.
* `LinkedTree.Guided` — every node is where the search for it leads, as in a search tree (`Ordered.guided`), and
  is then found on the way (`Guided.any_path`).
* `LinkedTree.meets` — whether a descent of a fixed number of steps comes past a node that is looked for.
  Past a leaf it stays at the null address, and looks there once more for every step left; `meets_eq`.
-/

namespace LinkedTree

variable {found right : Nat → Bool}

/-! ## Paths -/

/-- The nodes on the path from the root that `right` describes. -/
def path (right : Nat → Bool) : LinkedTree → List Nat
  | nil => []
  | node a l r => a :: if right a then r.path right else l.path right

@[simp] theorem path_nil (right : Nat → Bool) : nil.path right = [] := rfl

/-- The first node of the path, and the path below it. -/
theorem path_of_ne_nil {t : LinkedTree} (h : t ≠ nil) :
    t.path right = t.root :: (t.child (right t.root)).path right := by
  cases t with
  | nil => exact absurd rfl h
  | node a l r =>
      rw [path, child, root_node]
      cases right a <;> rfl

theorem mem_of_mem_path {t : LinkedTree} {a : Nat} (h : a ∈ t.path right) : a ∈ t.toList := by
  induction t with
  | nil => exact h
  | node b l r ihl ihr =>
      rw [path] at h
      rcases List.mem_cons.1 h with rfl | h
      · exact mem_node.2 (.inr (.inl rfl))
      · split at h
        · exact mem_node.2 (.inr (.inr (ihr h)))
        · exact mem_node.2 (.inl (ihl h))

theorem path_length_le_height (t : LinkedTree) : (t.path right).length ≤ t.height := by
  induction t with
  | nil => exact Nat.le_refl _
  | node a l r ihl ihr =>
      rw [path, List.length_cons, height_node]
      split <;> omega

/-- Nothing is found iff nothing is on the path. -/
theorem find_eq_nil_iff_path {t : LinkedTree} :
    t.find found right = nil ↔ (t.path right).any found = false := by
  induction t with
  | nil => exact iff_of_true rfl rfl
  | node a l r ihl ihr =>
      rw [find, path, List.any_cons]
      cases hfound : found a with
      | true =>
          rw [if_pos rfl, Bool.true_or]
          exact iff_of_false (by simp) (by simp)
      | false =>
          rw [if_neg (by simp), Bool.false_or]
          split
          · exact ihr
          · exact ihl

/-! ## Search trees -/

/-- The search for a node of the tree goes down on the side on which the node is, unless it ends before. -/
def Guided (found right : Nat → Nat → Bool) : LinkedTree → Prop
  | nil => True
  | node a l r => (∀ x ∈ l.toList, found x a = true ∨ right x a = false) ∧
      (∀ x ∈ r.toList, found x a = true ∨ right x a = true) ∧ l.Guided found right ∧ r.Guided found right

/-- The search for a node of the tree ends on its path. -/
theorem Guided.any_path {found right : Nat → Nat → Bool} (hself : ∀ x, found x x = true) {t : LinkedTree}
    (h : t.Guided found right) {x : Nat} (hx : x ∈ t.toList) : (t.path (right x)).any (found x) = true := by
  induction t with
  | nil => cases hx
  | node a l r ihl ihr =>
      obtain ⟨hleft, hright, hl, hr⟩ := h
      rw [path, List.any_cons, Bool.or_eq_true]
      rcases mem_node.1 hx with hx | rfl | hx
      · refine (hleft x hx).imp_right fun hdir => ?_
        rw [if_neg (by simp [hdir])]
        exact ihl hl hx
      · exact .inl (hself x)
      · refine (hright x hx).imp_right fun hdir => ?_
        rw [if_pos hdir]
        exact ihr hr hx

/-- The comparisons with the keys guide the searches in an ordered tree. -/
theorem Ordered.guided {β : Type*} [LinearOrder β] {key : Nat → β} {found right : Nat → Nat → Bool}
    {t : LinkedTree} (h : t.Ordered (· ≤ ·) key)
    (hfound : ∀ x ∈ t.toList, ∀ a ∈ t.toList, found x a = true ↔ key x = key a)
    (hright : ∀ x ∈ t.toList, ∀ a ∈ t.toList, right x a = true ↔ key a < key x) : t.Guided found right := by
  induction t with
  | nil => exact trivial
  | node a l r ihl ihr =>
      obtain ⟨hle, hge, hl, hr⟩ := h
      have ha : a ∈ (node a l r).toList := mem_node.2 (.inr (.inl rfl))
      have hleft x (hx : x ∈ l.toList) : x ∈ (node a l r).toList := mem_node.2 (.inl hx)
      have hsecond x (hx : x ∈ r.toList) : x ∈ (node a l r).toList := mem_node.2 (.inr (.inr hx))
      refine ⟨fun x hx => .inr ?_, fun x hx => ?_, ?_, ?_⟩
      · rw [← Bool.not_eq_true, hright x (hleft x hx) a ha]
        exact not_lt_of_ge (hle x hx)
      · rw [hfound x (hsecond x hx) a ha, hright x (hsecond x hx) a ha]
        exact (hge x hx).eq_or_lt.imp_left Eq.symm
      · exact ihl hl (fun x hx y hy => hfound x (hleft x hx) y (hleft y hy))
          fun x hx y hy => hright x (hleft x hx) y (hleft y hy)
      · exact ihr hr (fun x hx y hy => hfound x (hsecond x hx) y (hsecond y hy))
          fun x hx y hy => hright x (hsecond x hx) y (hsecond y hy)

/-! ## Descents -/

/-- A descent of `n` steps from the root comes past an address where `found` holds. -/
def meets (found right : Nat → Bool) : Nat → LinkedTree → Bool
  | 0, _ => false
  | n + 1, t => found t.root || (t.child (right t.root)).meets found right n

/-- Past a leaf every step is at the null address. -/
theorem meets_nil (found right : Nat → Bool) (n : Nat) :
    nil.meets found right n = (decide (0 < n) && found 0) := by
  induction n with
  | zero => rfl
  | succ n ih =>
      rw [meets, root_nil, child, ih, decide_eq_true (Nat.succ_pos n), Bool.true_and]
      cases found 0 <;> simp

/-- **What a descent meets**: the nodes of its path, and the null address if there are steps left over. -/
theorem meets_eq {n : Nat} : ∀ {t : LinkedTree}, (t.path right).length ≤ n →
    t.meets found right n =
      ((t.path right).any found || (decide ((t.path right).length < n) && found 0)) := by
  induction n with
  | zero =>
      intro t hlen
      have hnil : t.path right = [] := List.length_eq_zero_iff.1 (Nat.le_zero.1 hlen)
      rw [hnil]
      rfl
  | succ n ih =>
      intro t hlen
      by_cases hne : t = nil
      · rw [hne, meets_nil]
        rfl
      · rw [path_of_ne_nil hne] at hlen ⊢
        rw [List.length_cons] at hlen ⊢
        rw [meets, ih (Nat.le_of_succ_le_succ hlen), List.any_cons, Bool.or_assoc]
        simp only [Nat.succ_lt_succ_iff]

end LinkedTree
