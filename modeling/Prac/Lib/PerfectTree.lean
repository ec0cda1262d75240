import Prac.Lib.Balance

/-!
# Perfect linked trees

* `LinkedTree.Perfect` — all leaves of a tree are on one level.
* `LinkedTree.perfect` — the perfect tree of a height in which `2 ^ e * (2 * q + 1)` is the `q`th node of level
  `e`; its nodes are consecutive numbers (`toList_perfect`).
* `stored_perfect`, `forall_perfect` — the tree is stored if its nodes have the links, by level and place.
-/

namespace LinkedTree

/-- The two subtrees of every node have the same height. -/
def Perfect : LinkedTree → Prop
  | nil => True
  | node _ l r => l.height = r.height ∧ l.Perfect ∧ r.Perfect

theorem Perfect.balanced {t : LinkedTree} (h : t.Perfect) : t.Balanced := by
  induction t with
  | nil => exact trivial
  | node a l r ihl ihr =>
      obtain ⟨heq, hl, hr⟩ := h
      exact ⟨heq ▸ Nat.le_succ _, heq ▸ Nat.le_succ _, ihl hl, ihr hr⟩

/-- The balance bits of a perfect tree are not set. -/
theorem Perfect.balanceBits {balL balR : Nat → Bool} {t : LinkedTree} (h : t.Perfect)
    (hbits : ∀ a ∈ t.toList, balL a = false ∧ balR a = false) : t.BalanceBits balL balR := by
  induction t with
  | nil => exact trivial
  | node a l r ihl ihr =>
      obtain ⟨heq, hl, hr⟩ := h
      obtain ⟨hleft, hright⟩ := hbits a (mem_node.2 (.inr (.inl rfl)))
      refine ⟨?_, ?_, ihl hl fun x hx => ?_, ihr hr fun x hx => ?_⟩
      · rw [hleft, heq, decide_eq_false (lt_irrefl _)]
      · rw [hright, heq, decide_eq_false (lt_irrefl _)]
      · exact hbits x (mem_node.2 (.inl hx))
      · exact hbits x (mem_node.2 (.inr (.inr hx)))

/-- The `q`th perfect tree of height `e`. -/
def perfect : (e q : Nat) → LinkedTree
  | 0, _ => nil
  | e + 1, q => node (2 ^ e * (2 * q + 1)) (perfect e (2 * q)) (perfect e (2 * q + 1))

theorem root_perfect (e q : Nat) : (perfect (e + 1) q).root = 2 ^ e * (2 * q + 1) := rfl

theorem height_perfect (e q : Nat) : (perfect e q).height = e := by
  induction e generalizing q with
  | zero => rfl
  | succ e ih =>
      simp only [perfect, height]
      rw [ih, ih, max_self]

theorem perfect_perfect (e q : Nat) : (perfect e q).Perfect := by
  induction e generalizing q with
  | zero => exact trivial
  | succ e ih => exact ⟨by rw [height_perfect, height_perfect], ih _, ih _⟩

/-- The nodes are consecutive numbers. -/
theorem toList_perfect (e q : Nat) : (perfect e q).toList = List.range' (2 ^ e * q + 1) (2 ^ e - 1) := by
  induction e generalizing q with
  | zero => rfl
  | succ e ih =>
      have hpos := Nat.two_pow_pos e
      have hleft : 2 ^ (e + 1) * q = 2 ^ e * (2 * q) := by rw [Nat.pow_succ, Nat.mul_assoc]
      have hmid : 2 ^ e * (2 * q + 1) = 2 ^ e * (2 * q) + 2 ^ e := Nat.mul_succ _ _
      have hlen : 2 ^ (e + 1) - 1 = (2 ^ e - 1) + (1 + (2 ^ e - 1)) := by
        rw [Nat.pow_succ]
        omega
      rw [perfect, toList_node, ih, ih, hlen, ← List.range'_append_1, ← List.range'_append_1, hleft]
      congr 1
      rw [hmid, (by omega : 2 ^ e * (2 * q) + 1 + (2 ^ e - 1) = 2 ^ e * (2 * q) + 2 ^ e)]
      rfl

/-- The places on the level below. -/
theorem two_pow_sub_succ {depth e : Nat} (he : e < depth) : 2 ^ (depth - e) = 2 * 2 ^ (depth - (e + 1)) := by
  rw [(by omega : depth - e = depth - (e + 1) + 1), Nat.pow_succ']

theorem two_pow_mul_odd_lt {depth e q : Nat} (he : e < depth) (hq : q < 2 ^ (depth - (e + 1))) :
    2 ^ e * (2 * q + 1) < 2 ^ depth := by
  have hwidth := two_pow_sub_succ he
  calc 2 ^ e * (2 * q + 1) < 2 ^ e * 2 ^ (depth - e) :=
        Nat.mul_lt_mul_of_pos_left (by omega) (Nat.two_pow_pos e)
    _ = 2 ^ depth := by rw [← Nat.pow_add, Nat.add_sub_cancel' he.le]

section Below

variable {depth : Nat}

/-- The subtree of height `e` below a perfect tree of height `depth` is stored, if its nodes have the links. -/
theorem stored_perfect {left right : Nat → Nat}
    (hlinks : ∀ e q, e < depth → q < 2 ^ (depth - (e + 1)) →
      left (2 ^ e * (2 * q + 1)) = (perfect e (2 * q)).root ∧
        right (2 ^ e * (2 * q + 1)) = (perfect e (2 * q + 1)).root)
    {e q : Nat} (he : e ≤ depth) (hq : q < 2 ^ (depth - e)) : (perfect e q).Stored left right := by
  induction e generalizing q with
  | zero => exact trivial
  | succ e ih =>
      obtain ⟨hleft, hright⟩ := hlinks e q he hq
      have hwidth := two_pow_sub_succ he
      have hne : 2 ^ e * (2 * q + 1) ≠ 0 := Nat.mul_ne_zero (Nat.two_pow_pos e).ne' (Nat.succ_ne_zero _)
      exact ⟨hne, hleft, hright, ih (by omega) (by omega), ih (by omega) (by omega)⟩

/-- What holds of the nodes by level and place holds of all nodes. -/
theorem forall_perfect {P : Nat → Prop} (h : ∀ e q, e < depth → q < 2 ^ (depth - (e + 1)) → P (2 ^ e * (2 * q + 1)))
    {e q : Nat} (he : e ≤ depth) (hq : q < 2 ^ (depth - e)) : ∀ a ∈ (perfect e q).toList, P a := by
  induction e generalizing q with
  | zero => simp [perfect]
  | succ e ih =>
      have hwidth := two_pow_sub_succ he
      intro a ha
      rcases mem_node.1 ha with ha | rfl | ha
      · exact ih (by omega) (by omega) a ha
      · exact h e q he hq
      · exact ih (by omega) (by omega) a ha

end Below

/-- A number determines the level and the place of its node. -/
theorem two_pow_mul_odd_inj {e e' q q' : Nat} (h : 2 ^ e * (2 * q + 1) = 2 ^ e' * (2 * q' + 1)) :
    e = e' ∧ q = q' := by
  induction e generalizing e' with
  | zero =>
      cases e' with
      | zero => exact ⟨rfl, by omega⟩
      | succ e' =>
          rw [Nat.pow_succ', Nat.mul_assoc] at h
          omega
  | succ e ih =>
      rw [Nat.pow_succ', Nat.mul_assoc] at h
      cases e' with
      | zero => omega
      | succ e' =>
          rw [Nat.pow_succ', Nat.mul_assoc] at h
          obtain ⟨rfl, rfl⟩ := @ih e' (by omega)
          exact ⟨rfl, rfl⟩

end LinkedTree
