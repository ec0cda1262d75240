import Prac.Lib.Balance

/-!
# Deletion from balanced linked trees

* `LinkedTree.child` — the subtree in a direction.
* `LinkedTree.rebalance` — a node with one subtree replaced by a lower one, after the rotations;
  `toList_rebalance`, `Balanced.rebalance`.
* `LinkedTree.Crossed` — the double rotations whose middle node leans away from the lower subtree.
* `LinkedTree.eraseMin`, `eraseRoot`, `erase` — the deletions, in order those of `deleteMin`, `removeRoot`
  and `remove`, with `CrossesMin`, `CrossesRoot` and `Crosses`.
-/

namespace LinkedTree

/-- The subtree in a direction. -/
def child (d : Bool) : LinkedTree → LinkedTree
  | nil => nil
  | node _ l r => if d then r else l

@[simp] theorem child_branch (d : Bool) (a : Nat) (x y : LinkedTree) :
    (branch d a x y).child d = x := by
  cases d <;> rfl

@[simp] theorem child_branch_not (d : Bool) (a : Nat) (x y : LinkedTree) :
    (branch d a x y).child (!d) = y := by
  cases d <;> rfl

theorem branch_child (d : Bool) {t : LinkedTree} (h : t ≠ nil) :
    branch d t.root (t.child d) (t.child !d) = t := by
  obtain ⟨x, y, ht⟩ := exists_branch h d
  rw [ht, root_branch, child_branch, child_branch_not]

/-- The node `a` with the subtrees `x`, which may be two levels too low, and `y`, after the rotations. -/
def rebalance (d : Bool) (a : Nat) (x y : LinkedTree) : LinkedTree :=
  if y.height ≤ x.height + 1 then branch d a x y
  else if (y.child d).height ≤ (y.child !d).height then
    branch d y.root (branch d a x (y.child d)) (y.child !d)
  else
    branch d (y.child d).root (branch d a x ((y.child d).child d))
      (branch d y.root ((y.child d).child !d) (y.child !d))

/-- A double rotation whose middle node leans away from `x`. -/
def Crossed (d : Bool) (x y : LinkedTree) : Prop :=
  x.height + 1 < y.height ∧ (y.child !d).height < (y.child d).height ∧
    ((y.child d).child d).height < ((y.child d).child !d).height

instance instDecidableCrossed (d : Bool) (x y : LinkedTree) : Decidable (Crossed d x y) :=
  inferInstanceAs (Decidable (_ ∧ _ ∧ _))

theorem ne_nil_of_lt_height {n : Nat} {t : LinkedTree} (h : n < t.height) : t ≠ nil := by
  rintro rfl
  exact Nat.not_lt_zero _ h

theorem toList_rebalance (d : Bool) (a : Nat) (x y : LinkedTree) :
    (rebalance d a x y).toList = (branch d a x y).toList := by
  unfold rebalance
  split
  · rfl
  · rename_i hle
    have hy := branch_child d (ne_nil_of_lt_height (Nat.lt_of_not_le hle))
    split
    · have hsingle := @toList_single d y.root a x (y.child d) (y.child !d)
      rw [hy] at hsingle
      exact hsingle.symm
    · rename_i hin
      have hu := branch_child d (ne_nil_of_lt_height (Nat.lt_of_not_le hin))
      have hdouble : ∀ (c n : Nat) (s v w : LinkedTree),
          (branch d n (branch d a x s) (branch d c v w)).toList =
            (branch d a x (branch d c (branch d n s v) w)).toList := by
        intro c n s v w
        cases d <;> simp [branch]
      rw [hdouble, hu, hy]

/-- A subtree `y` that is two levels too high, and its subtrees `u`, towards `x`, and `w`. -/
structure Heavy (d : Bool) (x y u w : LinkedTree) : Prop where
  split : y = branch d y.root u w
  height : y.height = x.height + 2
  inner : u.height ≤ w.height + 1
  outer : w.height ≤ u.height + 1
  top : max u.height w.height = x.height + 1
  balanced_inner : u.Balanced
  balanced_outer : w.Balanced

theorem Heavy.of_balanced {d : Bool} {x y : LinkedTree} (hy : y.Balanced)
    (hheight : y.height = x.height + 2) : Heavy d x y (y.child d) (y.child !d) := by
  have hsplit := branch_child d (ne_nil_of_lt_height (n := 0) (t := y) (by omega))
  have hbal := hy
  have hh := hheight
  rw [← hsplit] at hbal hh
  obtain ⟨huw, hwu, hu, hw⟩ := balanced_branch.1 hbal
  rw [height_branch] at hh
  exact ⟨hsplit.symm, hheight, huw, hwu, by omega, hu, hw⟩

/-- The inner subtree is the higher one: its root and its subtrees. -/
theorem Heavy.inner_branch {d : Bool} {x y u w : LinkedTree} (h : Heavy d x y u w)
    (hin : ¬ u.height ≤ w.height) :
    branch d u.root (u.child d) (u.child !d) = u ∧
      u.height = max (u.child d).height (u.child !d).height + 1 ∧
      (u.child d).height ≤ (u.child !d).height + 1 ∧ (u.child !d).height ≤ (u.child d).height + 1 ∧
      (u.child d).Balanced ∧ (u.child !d).Balanced := by
  have hu := branch_child d (ne_nil_of_lt_height (Nat.lt_of_not_le hin))
  have hinner := h.balanced_inner
  have hh := congrArg LinkedTree.height hu.symm
  rw [← hu] at hinner
  exact ⟨hu, hh.trans height_branch, balanced_branch.1 hinner⟩

theorem Balanced.rebalance {d : Bool} {x y : LinkedTree} (hx : x.Balanced) (hy : y.Balanced) (a : Nat)
    (hxy : x.height ≤ y.height + 1) (hyx : y.height ≤ x.height + 2) :
    (rebalance d a x y).Balanced := by
  unfold LinkedTree.rebalance
  by_cases hle : y.height ≤ x.height + 1
  · rw [if_pos hle, balanced_branch]
    exact ⟨hxy, hle, hx, hy⟩
  · rw [if_neg hle]
    have hheavy := @Heavy.of_balanced d x y hy (by omega)
    have huw := hheavy.inner
    have hwu := hheavy.outer
    have htop := hheavy.top
    by_cases hin : (y.child d).height ≤ (y.child !d).height
    · rw [if_pos hin, balanced_branch, balanced_branch, height_branch]
      exact ⟨by omega, by omega, ⟨by omega, by omega, hx, hheavy.balanced_inner⟩, hheavy.balanced_outer⟩
    · obtain ⟨_, hh, hsv, hvs, hs, hv⟩ := hheavy.inner_branch hin
      rw [if_neg hin, balanced_branch, balanced_branch, balanced_branch, height_branch, height_branch]
      exact ⟨by omega, by omega, ⟨by omega, by omega, hx, hs⟩, by omega, by omega, hv, hheavy.balanced_outer⟩

/-! ## Stored trees with bits that may be wrong -/

/-- The links hold the tree, it is balanced, and its bits are right iff `ok`. -/
structure AvlIff (link : Bool → Nat → Nat) (bal : Bool → Nat → Bool) (t : LinkedTree) (ok : Prop) :
    Prop where
  stored : t.Stored (link false) (link true)
  balanced : t.Balanced
  bits : t.BalanceBits (bal false) (bal true) ↔ ok

section AvlIff

variable {link link' : Bool → Nat → Nat} {bal bal' : Bool → Nat → Bool} {d : Bool} {a : Nat}
  {t x y : LinkedTree} {ok okx oky : Prop}

theorem Avl.avlIff (h : Avl link bal t) : AvlIff link bal t True :=
  ⟨h.stored, h.balanced, iff_of_true h.bits trivial⟩

theorem AvlIff.avl_iff (h : AvlIff link bal t ok) : Avl link bal t ↔ ok :=
  ⟨fun havl => h.bits.1 havl.bits, fun hok => ⟨h.stored, h.balanced, h.bits.2 hok⟩⟩

theorem AvlIff.of_iff {ok' : Prop} (h : AvlIff link bal t ok) (hiff : ok ↔ ok') : AvlIff link bal t ok' :=
  ⟨h.stored, h.balanced, h.bits.trans hiff⟩

theorem AvlIff.congr (h : AvlIff link bal t ok)
    (heq : ∀ a ∈ t.toList, ∀ d, link' d a = link d a ∧ bal' d a = bal d a) : AvlIff link' bal' t ok := by
  refine ⟨h.stored.congr fun a ha => ⟨(heq a ha false).1, (heq a ha true).1⟩, h.balanced, ?_⟩
  rw [← h.bits]
  constructor
  · exact fun hbits => hbits.congr fun a ha => ⟨(heq a ha false).2.symm, (heq a ha true).2.symm⟩
  · exact fun hbits => hbits.congr fun a ha => ⟨(heq a ha false).2, (heq a ha true).2⟩

/-- A node over two such trees. -/
theorem AvlIff.branch (ha : a ≠ 0) (hnear : link d a = x.root) (hfar : link (!d) a = y.root)
    (hxy : x.height ≤ y.height + 1) (hyx : y.height ≤ x.height + 1) (hx : AvlIff link bal x okx)
    (hy : AvlIff link bal y oky) : AvlIff link bal (branch d a x y)
      ((bal d a = decide (y.height < x.height) ∧ bal (!d) a = decide (x.height < y.height)) ∧ okx ∧ oky) := by
  refine ⟨stored_branch.2 ⟨ha, hnear, hfar, hx.stored, hy.stored⟩,
    balanced_branch.2 ⟨hxy, hyx, hx.balanced, hy.balanced⟩, ?_⟩
  rw [balanceBits_branch, hx.bits, hy.bits, and_assoc]

end AvlIff

/-! ## The shapes of a rotation -/

section Shapes

variable {d : Bool} {a c n : Nat} {x y u w s v : LinkedTree}

theorem rebalance_quiet (h : y.height ≤ x.height + 1) : rebalance d a x y = branch d a x y := by
  unfold rebalance
  rw [if_pos h]

theorem rebalance_single (h : x.height + 1 < (branch d c u w).height) (hin : u.height ≤ w.height) :
    rebalance d a x (branch d c u w) = branch d c (branch d a x u) w := by
  unfold rebalance
  rw [if_neg (Nat.not_le.2 h), child_branch, child_branch_not, root_branch, if_pos hin]

theorem rebalance_double (h : x.height + 1 < (branch d c (branch d n s v) w).height)
    (hin : w.height < (branch d n s v).height) : rebalance d a x (branch d c (branch d n s v) w) =
      branch d n (branch d a x s) (branch d c v w) := by
  unfold rebalance
  rw [if_neg (Nat.not_le.2 h), child_branch, child_branch_not, root_branch, if_neg (Nat.not_le.2 hin),
    child_branch, child_branch_not, root_branch]

theorem not_crossed_quiet (h : y.height ≤ x.height + 1) : ¬ Crossed d x y :=
  fun hcrossed => Nat.not_lt.2 h hcrossed.1

theorem not_crossed_single (hin : u.height ≤ w.height) : ¬ Crossed d x (branch d c u w) := by
  rintro ⟨_, hlt, _⟩
  rw [child_branch, child_branch_not] at hlt
  exact Nat.not_lt.2 hin hlt

theorem crossed_double (h : x.height + 1 < (branch d c (branch d n s v) w).height)
    (hin : w.height < (branch d n s v).height) :
    Crossed d x (branch d c (branch d n s v) w) ↔ s.height < v.height := by
  unfold Crossed
  rw [child_branch, child_branch_not, child_branch, child_branch_not]
  exact ⟨fun hcrossed => hcrossed.2.2, fun hlt => ⟨h, hin, hlt⟩⟩

end Shapes

/-! ## Deletion -/

/-- The tree without its leftmost node, rebalanced. -/
def eraseMin : LinkedTree → LinkedTree
  | nil => nil
  | node a l r => if l = nil then r else rebalance false a l.eraseMin r

/-- The tree in which the root, if it has two children, gives way to the leftmost node on its right. -/
def eraseRoot : LinkedTree → LinkedTree
  | nil => nil
  | node a l r => if l = nil then r else if r = nil then l else rebalance true a r.eraseMin l

/-- The tree with the first node of the path where `found` holds removed. -/
def erase (found right : Nat → Bool) : LinkedTree → LinkedTree
  | nil => nil
  | node a l r =>
    if found a then (node a l r).eraseRoot
    else if right a then rebalance true a (r.erase found right) l
    else rebalance false a (l.erase found right) r

/-- A double rotation of `eraseMin` crosses. -/
def CrossesMin : LinkedTree → Prop
  | nil => False
  | node _ l r => l ≠ nil ∧ (l.CrossesMin ∨ Crossed false l.eraseMin r)

/-- One of `eraseRoot`. -/
def CrossesRoot : LinkedTree → Prop
  | nil => False
  | node _ l r => l ≠ nil ∧ r ≠ nil ∧ (r.CrossesMin ∨ Crossed true r.eraseMin l)

/-- One of `erase`. -/
def Crosses (found right : Nat → Bool) : LinkedTree → Prop
  | nil => False
  | node a l r =>
    if found a then (node a l r).CrossesRoot
    else if right a then r.Crosses found right ∨ Crossed true (r.erase found right) l
    else l.Crosses found right ∨ Crossed false (l.erase found right) r

instance instDecidableCrossesMin : ∀ t : LinkedTree, Decidable t.CrossesMin
  | nil => isFalse id
  | node _ l r =>
    have := instDecidableCrossesMin l
    inferInstanceAs (Decidable (l ≠ nil ∧ (l.CrossesMin ∨ Crossed false l.eraseMin r)))

instance instDecidableCrossesRoot : ∀ t : LinkedTree, Decidable t.CrossesRoot
  | nil => isFalse id
  | node _ l r => inferInstanceAs (Decidable (l ≠ nil ∧ r ≠ nil ∧ (r.CrossesMin ∨ Crossed true r.eraseMin l)))

instance instDecidableCrosses (found right : Nat → Bool) : ∀ t : LinkedTree, Decidable (t.Crosses found right)
  | nil => isFalse id
  | node a l r =>
    have := instDecidableCrosses found right l
    have := instDecidableCrosses found right r
    inferInstanceAs (Decidable (if found a then (node a l r).CrossesRoot
      else if right a then r.Crosses found right ∨ Crossed true (r.erase found right) l
      else l.Crosses found right ∨ Crossed false (l.erase found right) r))

theorem height_child_lt {d : Bool} {t : LinkedTree} (h : t ≠ nil) : (t.child d).height < t.height := by
  cases t with
  | nil => exact absurd rfl h
  | node a l r =>
      rw [height_node]
      cases d
      · exact Nat.lt_succ_of_le (Nat.le_max_left _ _)
      · exact Nat.lt_succ_of_le (Nat.le_max_right _ _)

theorem Crossed.height_le {d : Bool} {x y : LinkedTree} (h : Crossed d x y) : 3 ≤ y.height := by
  obtain ⟨hxy, hin, hmid⟩ := h
  have hmiddle : (y.child d).child (!d) ≠ nil := ne_nil_of_lt_height hmid
  have hinner : y.child d ≠ nil := ne_nil_of_lt_height hin
  have houter : y ≠ nil := ne_nil_of_lt_height hxy
  have hpos : 0 < ((y.child d).child !d).height := Nat.pos_of_ne_zero (mt height_eq_zero.1 hmiddle)
  have hlt : ((y.child d).child !d).height < (y.child d).height := height_child_lt hinner
  have hlt' : (y.child d).height < y.height := height_child_lt houter
  omega

theorem CrossesMin.height_le {t : LinkedTree} (h : t.CrossesMin) : 4 ≤ t.height := by
  induction t with
  | nil => exact h.elim
  | node a l r ihl _ =>
      rw [height_node]
      obtain ⟨-, hl | hr⟩ := h
      · have hl4 := ihl hl
        omega
      · have hr3 := hr.height_le
        omega

/-- Rotations cross in trees of four levels only. -/
theorem Crosses.height_le {found right : Nat → Bool} {t : LinkedTree} (h : t.Crosses found right) :
    4 ≤ t.height := by
  induction t with
  | nil => exact h.elim
  | node a l r ihl ihr =>
      rw [Crosses] at h
      rw [height_node]
      split at h
      · obtain ⟨-, -, hr | hl⟩ := h
        · have hr4 := hr.height_le
          omega
        · have hl3 := hl.height_le
          omega
      · split at h
        · obtain hr | hl := h
          · have hr4 := ihr hr
            omega
          · have hl3 := hl.height_le
            omega
        · obtain hl | hr := h
          · have hl4 := ihl hl
            omega
          · have hr3 := hr.height_le
            omega

theorem toList_eraseMin (t : LinkedTree) : t.eraseMin.toList = t.deleteMin.toList := by
  induction t with
  | nil => rfl
  | node a l r ihl _ =>
      by_cases hl : l = nil
      · rw [hl]
        rfl
      · rw [eraseMin, if_neg hl, deleteMin_node hl, toList_rebalance, toList_node]
        exact congrArg (· ++ a :: r.toList) ihl

theorem toList_eraseRoot (t : LinkedTree) : t.eraseRoot.toList = t.removeRoot.toList := by
  cases t with
  | nil => rfl
  | node a l r =>
      by_cases hl : l = nil
      · rw [hl]
        rfl
      · by_cases hr : r = nil
        · rw [eraseRoot, if_neg hl, if_pos hr, (toList_removeRoot.1 (.inr hr)), hr]
          exact (List.append_nil _).symm
        · rw [eraseRoot, if_neg hl, if_neg hr, removeRoot_node hl hr, toList_rebalance, toList_node]
          exact congrArg (l.toList ++ a :: ·) (toList_eraseMin r)

/-- In order, the rotations change nothing. -/
theorem toList_erase (found right : Nat → Bool) (t : LinkedTree) :
    (t.erase found right).toList = (t.remove found right).toList := by
  induction t with
  | nil => rfl
  | node a l r ihl ihr =>
      rw [erase, remove]
      split
      · exact toList_eraseRoot _
      · split
        · rw [toList_rebalance, toList_node, ← ihr]
          rfl
        · rw [toList_rebalance, toList_node, ← ihl]
          rfl

section Path

variable {found right : Nat → Bool} {d : Bool} {a : Nat} {x y : LinkedTree} (hfound : found a = false)
  (hright : right a = d)
include hfound hright

theorem find_branch : (branch d a x y).find found right = x.find found right := by
  subst hright
  cases hd : right a <;> simp [branch, find, hfound, hd]

theorem erase_branch : (branch d a x y).erase found right = rebalance d a (x.erase found right) y := by
  subst hright
  cases hd : right a <;> simp [branch, erase, hfound, hd]

theorem crosses_branch : (branch d a x y).Crosses found right ↔
    x.Crosses found right ∨ Crossed d (x.erase found right) y := by
  subst hright
  cases hd : right a <;> simp [branch, Crosses, hfound, hd]

end Path

section Here

variable {found right : Nat → Bool} {t : LinkedTree} (h : found t.root = true)
include h

theorem find_here : t.find found right = t := by
  cases t with
  | nil => rfl
  | node a l r => exact if_pos h

theorem erase_here : t.erase found right = t.eraseRoot := by
  cases t with
  | nil => rfl
  | node a l r => exact if_pos h

theorem crosses_here : t.Crosses found right ↔ t.CrossesRoot := by
  cases t with
  | nil => rfl
  | node a l r => exact iff_of_eq (if_pos h)

end Here

section Min

variable {a : Nat} {l r : LinkedTree} (hl : l ≠ nil)
include hl

theorem eraseMin_left : (branch false a l r).eraseMin = rebalance false a l.eraseMin r := if_neg hl

theorem crossesMin_left : (branch false a l r).CrossesMin ↔ l.CrossesMin ∨ Crossed false l.eraseMin r :=
  and_iff_right hl

variable (hr : r ≠ nil)
include hr

theorem eraseRoot_two : (branch true a r l).eraseRoot = rebalance true a r.eraseMin l :=
  (if_neg hl).trans (if_neg hr)

theorem crossesRoot_two : (branch true a r l).CrossesRoot ↔ r.CrossesMin ∨ Crossed true r.eraseMin l :=
  (and_iff_right hl).trans (and_iff_right hr)

theorem vacated_two : (branch true a r l).vacated = r.minAddr := by
  simp [branch, vacated, hl, hr]

end Min

/-- A node with at most one child gives way to it. -/
theorem eraseRoot_one (d : Bool) (a : Nat) (x : LinkedTree) : (branch d a x nil).eraseRoot = x := by
  cases d with
  | false =>
      by_cases hx : x = nil
      · rw [hx]
        rfl
      · exact (if_neg hx).trans (if_pos rfl)
  | true => rfl

theorem vacated_one (d : Bool) (a : Nat) (x : LinkedTree) : (branch d a x nil).vacated = a := by
  cases d <;> simp [branch, vacated]

theorem not_crossesRoot_one (d : Bool) (a : Nat) (x : LinkedTree) : ¬ (branch d a x nil).CrossesRoot := by
  cases d with
  | false => exact fun h => h.2.1 rfl
  | true => exact fun h => h.1 rfl

end LinkedTree
