import Mathlib.Data.Nat.Fib.Basic
import Prac.Lib.LinkedTree

/-!
# Balanced linked trees

* `LinkedTree.height`, `LinkedTree.Balanced` — the heights of the two subtrees of a node differ by at
  most one.  `Balanced.fib_le_size` bounds the height.
* `LinkedTree.BalanceBits` — the two bits of each node tell which of its subtrees is higher.
* `LinkedTree.branch` — a node by its child in one direction and its other child, so that mirrored cases
  are one case.
* `LinkedTree.Avl` — a stored, balanced tree with its bits; `Avl.branch_iff`.
* `toList_single`, `toList_double` — the rotations keep the nodes in order.
-/

namespace LinkedTree

/-- The number of nodes on the longest path. -/
def height : LinkedTree → Nat
  | nil => 0
  | node _ l r => max l.height r.height + 1

@[simp] theorem height_nil : nil.height = 0 := rfl
@[simp] theorem height_node (a : Nat) (l r : LinkedTree) :
    (node a l r).height = max l.height r.height + 1 := rfl

theorem height_eq_zero {t : LinkedTree} : t.height = 0 ↔ t = nil := by
  cases t with
  | nil => simp
  | node a l r => simp

/-- The heights of the two subtrees of a node differ by at most one. -/
def Balanced : LinkedTree → Prop
  | nil => True
  | node _ l r => l.height ≤ r.height + 1 ∧ r.height ≤ l.height + 1 ∧ l.Balanced ∧ r.Balanced

instance Balanced.instDecidable : ∀ t : LinkedTree, Decidable t.Balanced
  | nil => isTrue trivial
  | node _ l r =>
    have := Balanced.instDecidable l
    have := Balanced.instDecidable r
    inferInstanceAs (Decidable (l.height ≤ r.height + 1 ∧ r.height ≤ l.height + 1 ∧ l.Balanced ∧ r.Balanced))

theorem height_le_size (t : LinkedTree) : t.height ≤ t.size := by
  induction t with
  | nil => exact Nat.le_refl 0
  | node a l r ihl ihr =>
      rw [height_node, size_node]
      omega

/-- A balanced tree of a height has at least as many nodes as the Fibonacci trees. -/
theorem Balanced.fib_le_size {t : LinkedTree} (h : t.Balanced) : Nat.fib (t.height + 2) ≤ t.size + 1 := by
  induction t with
  | nil => exact Nat.le_refl 1
  | node a l r ihl ihr =>
      obtain ⟨hlr, hrl, hl, hr⟩ := h
      have hadd : ∀ m, Nat.fib (m + 1 + 2) = Nat.fib (m + 1) + Nat.fib (m + 2) := fun m => Nat.fib_add_two
      have hl' := ihl hl
      have hr' := ihr hr
      rw [size_node, height_node, hadd]
      rcases Nat.le_total l.height r.height with hle | hle
      · have hmono : Nat.fib (r.height + 1) ≤ Nat.fib (l.height + 2) := Nat.fib_mono (by omega)
        rw [Nat.max_eq_right hle]
        omega
      · have hmono : Nat.fib (l.height + 1) ≤ Nat.fib (r.height + 2) := Nat.fib_mono (by omega)
        rw [Nat.max_eq_left hle]
        omega

/-- The bits of a node tell whether its left, or its right, subtree is the higher one. -/
def BalanceBits (balL balR : Nat → Bool) : LinkedTree → Prop
  | nil => True
  | node a l r => balL a = decide (r.height < l.height) ∧ balR a = decide (l.height < r.height) ∧
    l.BalanceBits balL balR ∧ r.BalanceBits balL balR

instance BalanceBits.instDecidable (balL balR : Nat → Bool) :
    ∀ t : LinkedTree, Decidable (t.BalanceBits balL balR)
  | nil => isTrue trivial
  | node a l r =>
    have := BalanceBits.instDecidable balL balR l
    have := BalanceBits.instDecidable balL balR r
    inferInstanceAs (Decidable (balL a = decide (r.height < l.height) ∧
      balR a = decide (l.height < r.height) ∧ l.BalanceBits balL balR ∧ r.BalanceBits balL balR))

theorem BalanceBits.congr {balL balR balL' balR' : Nat → Bool} {t : LinkedTree}
    (h : t.BalanceBits balL balR) (heq : ∀ a ∈ t.toList, balL' a = balL a ∧ balR' a = balR a) :
    t.BalanceBits balL' balR' := by
  induction t with
  | nil => exact trivial
  | node a l r ihl ihr =>
      obtain ⟨hleft, hright, hl, hr⟩ := h
      have hself := heq a (by simp)
      refine ⟨hself.1.trans hleft, hself.2.trans hright, ihl hl fun x hx => ?_, ihr hr fun x hx => ?_⟩
      · exact heq x (mem_node.2 (.inl hx))
      · exact heq x (mem_node.2 (.inr (.inr hx)))

/-! ## Directions -/

/-- The node `a` with the child `x` in direction `d` (`true` is right) and `y` in the other. -/
def branch (d : Bool) (a : Nat) (x y : LinkedTree) : LinkedTree :=
  if d then node a y x else node a x y

section Branch

variable {d : Bool} {a : Nat} {x y : LinkedTree}

@[simp] theorem root_branch : (branch d a x y).root = a := by
  cases d <;> rfl

theorem branch_not : branch (!d) a y x = branch d a x y := by
  cases d <;> rfl

@[simp] theorem height_branch : (branch d a x y).height = max x.height y.height + 1 := by
  cases d
  · rfl
  · exact congrArg (· + 1) (Nat.max_comm _ _)

theorem mem_branch {z : Nat} : z ∈ (branch d a x y).toList ↔ z = a ∨ z ∈ x.toList ∨ z ∈ y.toList := by
  cases d <;> simp only [branch, mem_node, if_true, Bool.false_eq_true, if_false] <;> tauto

theorem exists_branch {t : LinkedTree} (h : t ≠ nil) (d : Bool) : ∃ x y, t = branch d t.root x y := by
  cases t with
  | nil => exact absurd rfl h
  | node a l r =>
      cases d with
      | false => exact ⟨l, r, rfl⟩
      | true => exact ⟨r, l, rfl⟩

theorem nodup_branch : (branch d a x y).toList.Nodup ↔
    a ∉ x.toList ∧ a ∉ y.toList ∧ x.toList.Nodup ∧ y.toList.Nodup ∧ ∀ z ∈ x.toList, z ∉ y.toList := by
  cases d <;>
    simp only [branch, if_true, Bool.false_eq_true, if_false, toList_node, List.nodup_append,
      List.nodup_cons, List.mem_cons] <;> grind

theorem stored_branch {link : Bool → Nat → Nat} :
    (branch d a x y).Stored (link false) (link true) ↔
      a ≠ 0 ∧ link d a = x.root ∧ link (!d) a = y.root ∧ x.Stored (link false) (link true) ∧
        y.Stored (link false) (link true) := by
  cases d with
  | false => exact Iff.rfl
  | true =>
      exact ⟨fun ⟨h0, h1, h2, h3, h4⟩ => ⟨h0, h2, h1, h4, h3⟩,
        fun ⟨h0, h1, h2, h3, h4⟩ => ⟨h0, h2, h1, h4, h3⟩⟩

theorem balanced_branch : (branch d a x y).Balanced ↔
    x.height ≤ y.height + 1 ∧ y.height ≤ x.height + 1 ∧ x.Balanced ∧ y.Balanced := by
  cases d with
  | false => exact Iff.rfl
  | true => exact ⟨fun ⟨h1, h2, h3, h4⟩ => ⟨h2, h1, h4, h3⟩, fun ⟨h1, h2, h3, h4⟩ => ⟨h2, h1, h4, h3⟩⟩

theorem balanceBits_branch {bal : Bool → Nat → Bool} :
    (branch d a x y).BalanceBits (bal false) (bal true) ↔
      bal d a = decide (y.height < x.height) ∧ bal (!d) a = decide (x.height < y.height) ∧
        x.BalanceBits (bal false) (bal true) ∧ y.BalanceBits (bal false) (bal true) := by
  cases d with
  | false => exact Iff.rfl
  | true => exact ⟨fun ⟨h1, h2, h3, h4⟩ => ⟨h2, h1, h4, h3⟩, fun ⟨h1, h2, h3, h4⟩ => ⟨h2, h1, h4, h3⟩⟩

theorem toList_branch_congr {x' : LinkedTree} (h : x'.toList = x.toList) :
    (branch d a x' y).toList = (branch d a x y).toList := by
  cases d <;> simp [branch, h]

/-- The rotation of a child over its parent. -/
theorem toList_single (p c : Nat) (y u z : LinkedTree) :
    (branch d c y (branch d p u z)).toList = (branch d p (branch d c y u) z).toList := by
  cases d <;> simp [branch]

/-- The links after the rotation of a child over its parent hold the rotated tree. -/
theorem Stored.single {link link' : Bool → Nat → Nat} {p c : Nat} {w u : LinkedTree}
    (h : (branch d p (branch d c w u) y).Stored (link false) (link true))
    (hnodup : (branch d p (branch d c w u) y).toList.Nodup)
    (hpnear : link' d p = link (!d) c) (hpfar : link' (!d) p = link (!d) p)
    (hcnear : link' d c = link d c) (hcfar : link' (!d) c = p)
    (hrest : ∀ a ∈ (branch d p (branch d c w u) y).toList, a ≠ p → a ≠ c → ∀ e, link' e a = link e a) :
    (branch d c w (branch d p u y)).Stored (link' false) (link' true) := by
  obtain ⟨hp0, _, hpy, hchild, hy⟩ := stored_branch.1 h
  obtain ⟨hc0, hcw, hcu, hw, hu⟩ := stored_branch.1 hchild
  obtain ⟨hpx, hpy', hndx, _, hxy⟩ := nodup_branch.1 hnodup
  obtain ⟨hcw', hcu', _, _, _⟩ := nodup_branch.1 hndx
  have hkeep : ∀ s : LinkedTree, s.Stored (link false) (link true) → p ∉ s.toList → c ∉ s.toList →
      (∀ a ∈ s.toList, a ∈ (branch d p (branch d c w u) y).toList) →
        s.Stored (link' false) (link' true) := by
    intro s hs hps hcs hsub
    refine hs.congr fun a ha => ?_
    have hsame := hrest a (hsub a ha) (fun hap => hps (hap ▸ ha)) fun hac => hcs (hac ▸ ha)
    exact ⟨hsame false, hsame true⟩
  have hpw : p ∉ w.toList := fun hin => hpx (mem_branch.2 (.inr (.inl hin)))
  have hpu : p ∉ u.toList := fun hin => hpx (mem_branch.2 (.inr (.inr hin)))
  have hcy : c ∉ y.toList := hxy c (mem_branch.2 (.inl rfl))
  have hw' := hkeep w hw hpw hcw' fun a ha => mem_branch.2 (.inr (.inl (mem_branch.2 (.inr (.inl ha)))))
  have hu' := hkeep u hu hpu hcu' fun a ha => mem_branch.2 (.inr (.inl (mem_branch.2 (.inr (.inr ha)))))
  have hy' := hkeep y hy hpy' hcy fun a ha => mem_branch.2 (.inr (.inr ha))
  refine stored_branch.2 ⟨hc0, hcnear.trans hcw, hcfar.trans root_branch.symm, hw', ?_⟩
  exact stored_branch.2 ⟨hp0, hpnear.trans hcu, hpfar.trans hpy, hu', hy'⟩

/-- The rotation of a grandchild over the child and the parent. -/
theorem toList_double (p c n : Nat) (s w u z : LinkedTree) :
    (branch d n (branch d c u s) (branch d p w z)).toList =
      (branch d p (branch (!d) c (branch d n s w) u) z).toList := by
  cases d <;> simp [branch]

theorem insertAt_branch {goRight : Nat → Bool} (new : Nat) (h : goRight a = d) :
    (branch d a x y).insertAt goRight new = branch d a (x.insertAt goRight new) y := by
  cases d <;> simp [branch, insertAt, h]

end Branch

/-- A new leaf, or a node one of whose subtrees is higher. -/
def Lopsided : LinkedTree → Prop
  | nil => False
  | node _ l r => (l = nil ∧ r = nil) ∨ l.height ≠ r.height

theorem lopsided_branch {d : Bool} {a : Nat} {x y : LinkedTree} :
    (branch d a x y).Lopsided ↔ (x = nil ∧ y = nil) ∨ x.height ≠ y.height := by
  cases d with
  | false => rfl
  | true => exact or_congr And.comm ne_comm

theorem height_insertAt (goRight : Nat → Bool) (new : Nat) (t : LinkedTree) :
    t.height ≤ (t.insertAt goRight new).height ∧ (t.insertAt goRight new).height ≤ t.height + 1 := by
  induction t with
  | nil => simp [insertAt]
  | node a l r ihl ihr =>
      rw [insertAt]
      split
      · simp only [height_node]
        omega
      · simp only [height_node]
        omega

/-- Where an insertion makes a tree higher, it does so along the path. -/
theorem grown_branch {goRight : Nat → Bool} {new : Nat} {t : LinkedTree} (hne : t ≠ nil)
    (hgrown : (t.insertAt goRight new).height = t.height + 1) : ∃ x y,
      t = branch (goRight t.root) t.root x y ∧
        t.insertAt goRight new = branch (goRight t.root) t.root (x.insertAt goRight new) y ∧
        (x.insertAt goRight new).height = x.height + 1 ∧ y.height ≤ x.height := by
  obtain ⟨x, y, ht⟩ := exists_branch hne (goRight t.root)
  have hins : t.insertAt goRight new = branch (goRight t.root) t.root (x.insertAt goRight new) y := by
    rw [ht, root_branch]
    exact insertAt_branch new rfl
  have hheight : t.height = max x.height y.height + 1 := by
    rw [ht]
    exact height_branch
  have hx := height_insertAt goRight new x
  rw [hins, height_branch] at hgrown
  exact ⟨x, y, ht, hins, by omega, by omega⟩

theorem grown_lopsided {goRight : Nat → Bool} {new : Nat} {t : LinkedTree}
    (hgrown : (t.insertAt goRight new).height = t.height + 1) : (t.insertAt goRight new).Lopsided := by
  by_cases hne : t = nil
  · rw [hne]
    exact .inl ⟨rfl, rfl⟩
  · obtain ⟨x, y, _, hins, hx, hy⟩ := grown_branch hne hgrown
    rw [hins, lopsided_branch]
    exact .inr (by omega)

/-! ## Stored balanced trees -/

/-- The links hold the tree, it is balanced, and the bits say how. -/
structure Avl (link : Bool → Nat → Nat) (bal : Bool → Nat → Bool) (t : LinkedTree) : Prop where
  stored : t.Stored (link false) (link true)
  balanced : t.Balanced
  bits : t.BalanceBits (bal false) (bal true)

section Avl

variable {link link' : Bool → Nat → Nat} {bal bal' : Bool → Nat → Bool} {d : Bool} {a : Nat}
  {x y : LinkedTree}

theorem Avl.nil : Avl link bal nil := ⟨trivial, trivial, trivial⟩

theorem Avl.branch_iff : Avl link bal (branch d a x y) ↔
    a ≠ 0 ∧ link d a = x.root ∧ link (!d) a = y.root ∧
      x.height ≤ y.height + 1 ∧ y.height ≤ x.height + 1 ∧
      bal d a = decide (y.height < x.height) ∧ bal (!d) a = decide (x.height < y.height) ∧
      Avl link bal x ∧ Avl link bal y := by
  constructor
  · rintro ⟨hstored, hbalanced, hbits⟩
    obtain ⟨ha, hnear, hfar, hsx, hsy⟩ := stored_branch.1 hstored
    obtain ⟨hxy, hyx, hbx, hby⟩ := balanced_branch.1 hbalanced
    obtain ⟨hbn, hbf, hx, hy⟩ := balanceBits_branch.1 hbits
    exact ⟨ha, hnear, hfar, hxy, hyx, hbn, hbf, ⟨hsx, hbx, hx⟩, ⟨hsy, hby, hy⟩⟩
  · rintro ⟨ha, hnear, hfar, hxy, hyx, hbn, hbf, ⟨hsx, hbx, hx⟩, ⟨hsy, hby, hy⟩⟩
    exact ⟨stored_branch.2 ⟨ha, hnear, hfar, hsx, hsy⟩, balanced_branch.2 ⟨hxy, hyx, hbx, hby⟩,
      balanceBits_branch.2 ⟨hbn, hbf, hx, hy⟩⟩

/-- A tree depends on its own nodes only. -/
theorem Avl.congr {t : LinkedTree} (h : Avl link bal t)
    (heq : ∀ a ∈ t.toList, ∀ d, link' d a = link d a ∧ bal' d a = bal d a) : Avl link' bal' t :=
  ⟨h.stored.congr fun a ha => ⟨(heq a ha false).1, (heq a ha true).1⟩, h.balanced,
    h.bits.congr fun a ha => ⟨(heq a ha false).2, (heq a ha true).2⟩⟩

end Avl

end LinkedTree
