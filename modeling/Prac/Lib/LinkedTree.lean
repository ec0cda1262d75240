import Mathlib.Data.List.Basic
import Mathlib.Data.List.Nodup
import Mathlib.Order.Lattice

/-!
# Binary trees linked by addresses

* `LinkedTree` — the shape of a tree in a memory of nodes: the addresses of its nodes.
* `Stored` — the links `left` and `right` hold the tree; 0 is the null address.  `Stored.unique` and
  `Stored.congr` — the tree is determined by its root, and by the links of its own nodes;
  `Stored.reachable_iff` — its nodes are the addresses reachable from the root.
* `Ordered` — a search tree, where `R` says how a key relates to the keys on its right.
* `insertAt`, `deleteMin` — insertion of a leaf along a path, and removal of the leftmost node, with
  what they do to the nodes in order and to the links.
* `Quiet`, `QuietBelow` — a path comes past no other node that is looked for and has two children.
-/

/-- A binary tree of addresses. -/
inductive LinkedTree where
  | nil
  | node (addr : Nat) (left right : LinkedTree)
  deriving DecidableEq

namespace LinkedTree

/-- The address of the root, 0 for the empty tree. -/
def root : LinkedTree → Nat
  | nil => 0
  | node addr _ _ => addr

/-- The addresses in order. -/
def toList : LinkedTree → List Nat
  | nil => []
  | node addr left right => left.toList ++ addr :: right.toList

@[simp] theorem root_nil : nil.root = 0 := rfl
@[simp] theorem root_node (a : Nat) (l r : LinkedTree) : (node a l r).root = a := rfl
@[simp] theorem toList_nil : nil.toList = [] := rfl
@[simp] theorem toList_node (a : Nat) (l r : LinkedTree) :
    (node a l r).toList = l.toList ++ a :: r.toList := rfl

/-- The number of nodes. -/
def size (t : LinkedTree) : Nat := t.toList.length

@[simp] theorem size_nil : nil.size = 0 := rfl

@[simp] theorem size_node (a : Nat) (l r : LinkedTree) : (node a l r).size = l.size + r.size + 1 := by
  simp [size, Nat.add_assoc]

/-- A tree of one node. -/
theorem eq_leaf {t : LinkedTree} (h : t.size = 1) : t = .node t.root .nil .nil := by
  cases t with
  | nil => cases h
  | node a l r =>
      rw [size_node] at h
      have hl : l.toList = [] := List.length_eq_zero_iff.1 (show l.size = 0 by omega)
      have hr : r.toList = [] := List.length_eq_zero_iff.1 (show r.size = 0 by omega)
      have hnil : ∀ s : LinkedTree, s.toList = [] → s = .nil := fun s hs => by
        cases s with
        | nil => rfl
        | node b x y => simp at hs
      rw [hnil l hl, hnil r hr]
      rfl

theorem mem_node {a x : Nat} {l r : LinkedTree} :
    x ∈ (node a l r).toList ↔ x ∈ l.toList ∨ x = a ∨ x ∈ r.toList := by
  simp

theorem root_mem {t : LinkedTree} (h : t ≠ nil) : t.root ∈ t.toList := by
  cases t with
  | nil => exact absurd rfl h
  | node a l r => simp

/-! ## Trees in memory -/

section Stored

variable {left right left' right' : Nat → Nat}

/-- The links hold the tree below its root. -/
def Stored (left right : Nat → Nat) : LinkedTree → Prop
  | nil => True
  | node a l r => a ≠ 0 ∧ left a = l.root ∧ right a = r.root ∧ l.Stored left right ∧ r.Stored left right

instance Stored.instDecidable (left right : Nat → Nat) : ∀ t : LinkedTree, Decidable (t.Stored left right)
  | nil => isTrue trivial
  | node a l r =>
    have := Stored.instDecidable left right l
    have := Stored.instDecidable left right r
    inferInstanceAs (Decidable (a ≠ 0 ∧ left a = l.root ∧ right a = r.root ∧ l.Stored left right ∧
      r.Stored left right))

theorem Stored.ne_zero {t : LinkedTree} (h : t.Stored left right) : ∀ a ∈ t.toList, a ≠ 0 := by
  induction t with
  | nil => simp
  | node a l r ihl ihr =>
      obtain ⟨ha, _, _, hl, hr⟩ := h
      intro x hx
      rcases mem_node.1 hx with hx | rfl | hx
      · exact ihl hl x hx
      · exact ha
      · exact ihr hr x hx

theorem Stored.root_eq_zero {t : LinkedTree} (h : t.Stored left right) : t.root = 0 ↔ t = nil := by
  cases t with
  | nil => simp
  | node a l r => simpa using h.1

/-- A tree depends on the links of its own nodes only. -/
theorem Stored.congr {t : LinkedTree} (h : t.Stored left right)
    (heq : ∀ a ∈ t.toList, left' a = left a ∧ right' a = right a) : t.Stored left' right' := by
  induction t with
  | nil => exact trivial
  | node a l r ihl ihr =>
      obtain ⟨ha, hleft, hright, hl, hr⟩ := h
      have hself := heq a (by simp)
      refine ⟨ha, hself.1.trans hleft, hself.2.trans hright, ihl hl fun x hx => ?_,
        ihr hr fun x hx => ?_⟩
      · exact heq x (mem_node.2 (.inl hx))
      · exact heq x (mem_node.2 (.inr (.inr hx)))

/-- The links below a root hold one tree. -/
theorem Stored.unique {t t' : LinkedTree} (h : t.Stored left right) (h' : t'.Stored left right)
    (hroot : t.root = t'.root) : t = t' := by
  induction t generalizing t' with
  | nil =>
      exact ((h'.root_eq_zero).1 hroot.symm).symm
  | node a l r ihl ihr =>
      obtain ⟨ha, hleft, hright, hl, hr⟩ := h
      cases t' with
      | nil => exact absurd hroot ha
      | node a' l' r' =>
          obtain ⟨_, hleft', hright', hl', hr'⟩ := h'
          obtain rfl : a = a' := hroot
          rw [ihl hl hl' (hleft.symm.trans hleft'), ihr hr hr' (hright.symm.trans hright')]

/-- The addresses that the links lead to from `start`. -/
inductive Reachable (left right : Nat → Nat) (start : Nat) : Nat → Prop
  | start : start ≠ 0 → Reachable left right start start
  | left {a : Nat} : Reachable left right start a → left a ≠ 0 → Reachable left right start (left a)
  | right {a : Nat} : Reachable left right start a → right a ≠ 0 → Reachable left right start (right a)

/-- The links of a node stay in the tree. -/
theorem Stored.links_mem {t : LinkedTree} (h : t.Stored left right) {a : Nat} (ha : a ∈ t.toList) :
    (left a ≠ 0 → left a ∈ t.toList) ∧ (right a ≠ 0 → right a ∈ t.toList) := by
  induction t with
  | nil => simp at ha
  | node x l r ihl ihr =>
      obtain ⟨_, hleft, hright, hl, hr⟩ := h
      rcases mem_node.1 ha with ha | rfl | ha
      · obtain ⟨hall, halr⟩ := ihl hl ha
        exact ⟨fun h0 => mem_node.2 (.inl (hall h0)), fun h0 => mem_node.2 (.inl (halr h0))⟩
      · rw [hleft, hright]
        refine ⟨fun h0 => mem_node.2 (.inl (root_mem ?_)), fun h0 => mem_node.2 (.inr (.inr (root_mem ?_)))⟩
        · rintro rfl
          exact h0 rfl
        · rintro rfl
          exact h0 rfl
      · obtain ⟨harl, harr⟩ := ihr hr ha
        exact ⟨fun h0 => mem_node.2 (.inr (.inr (harl h0))), fun h0 => mem_node.2 (.inr (.inr (harr h0)))⟩

/-- All nodes of a tree can be reached from where its root can be. -/
theorem Stored.reachable {t : LinkedTree} (h : t.Stored left right) {start : Nat}
    (hroot : t.root ≠ 0 → Reachable left right start t.root) {a : Nat} (ha : a ∈ t.toList) :
    Reachable left right start a := by
  induction t with
  | nil => simp at ha
  | node x l r ihl ihr =>
      obtain ⟨hx, hleft, hright, hl, hr⟩ := h
      have hself : Reachable left right start x := hroot hx
      rcases mem_node.1 ha with ha | rfl | ha
      · refine ihl hl (fun h0 => ?_) ha
        rw [← hleft] at h0 ⊢
        exact hself.left h0
      · exact hself
      · refine ihr hr (fun h0 => ?_) ha
        rw [← hright] at h0 ⊢
        exact hself.right h0

/-- The addresses reachable from the root are those of the tree. -/
theorem Stored.reachable_iff {t : LinkedTree} (h : t.Stored left right) {a : Nat} :
    Reachable left right t.root a ↔ a ∈ t.toList := by
  constructor
  · intro ha
    induction ha with
    | start h0 => exact root_mem fun hnil => h0 (by rw [hnil]; rfl)
    | left _ h0 ih => exact (h.links_mem ih).1 h0
    | right _ h0 ih => exact (h.links_mem ih).2 h0
  · exact h.reachable .start

/-- Below every node of a tree is a stored tree with no more nodes. -/
theorem Stored.exists_subtree {t : LinkedTree} (h : t.Stored left right) {x : Nat}
    (hx : x ∈ t.toList) : ∃ s : LinkedTree, s.Stored left right ∧ s.root = x ∧ s.size ≤ t.size := by
  induction t with
  | nil => simp at hx
  | node a l r ihl ihr =>
      have hwhole := h
      obtain ⟨_, _, _, hl, hr⟩ := h
      rcases mem_node.1 hx with hx | rfl | hx
      · obtain ⟨s, hs, hroot, hsize⟩ := ihl hl hx
        exact ⟨s, hs, hroot, by rw [size_node]; omega⟩
      · exact ⟨_, hwhole, rfl, Nat.le_refl _⟩
      · obtain ⟨s, hs, hroot, hsize⟩ := ihr hr hx
        exact ⟨s, hs, hroot, by rw [size_node]; omega⟩

/-- A node does not occur below itself. -/
theorem Stored.not_mem_below {a : Nat} {l r : LinkedTree} (h : (node a l r).Stored left right) :
    a ∉ l.toList ∧ a ∉ r.toList := by
  have hwhole := h
  obtain ⟨_, _, _, hl, hr⟩ := h
  refine ⟨fun ha => ?_, fun ha => ?_⟩
  · obtain ⟨s, hs, hroot, hsize⟩ := hl.exists_subtree ha
    rw [hs.unique hwhole hroot, size_node] at hsize
    omega
  · obtain ⟨s, hs, hroot, hsize⟩ := hr.exists_subtree ha
    rw [hs.unique hwhole hroot, size_node] at hsize
    omega

end Stored

/-! ## Search trees -/

section Ordered

variable {β : Type*} [LinearOrder β] {key : Nat → β} {R : β → β → Prop}

/-- The keys on the left of a node are at most its key, and those on the right are related to it by
`R`, which is `<` or `≤`. -/
def Ordered (R : β → β → Prop) (key : Nat → β) : LinkedTree → Prop
  | nil => True
  | node a l r => (∀ x ∈ l.toList, key x ≤ key a) ∧ (∀ x ∈ r.toList, R (key a) (key x)) ∧
    l.Ordered R key ∧ r.Ordered R key

theorem Ordered.mono {R' : β → β → Prop} {t : LinkedTree} (h : t.Ordered R key)
    (hR : ∀ x y, R x y → R' x y) : t.Ordered R' key := by
  induction t with
  | nil => exact trivial
  | node a l r ihl ihr =>
      obtain ⟨hle, hgt, hl, hr⟩ := h
      exact ⟨hle, fun x hx => hR _ _ (hgt x hx), ihl hl, ihr hr⟩

theorem Ordered.congr {key' : Nat → β} {t : LinkedTree} (h : t.Ordered R key)
    (heq : ∀ a ∈ t.toList, key' a = key a) : t.Ordered R key' := by
  induction t with
  | nil => exact trivial
  | node a l r ihl ihr =>
      obtain ⟨hle, hgt, hl, hr⟩ := h
      have hla : ∀ x ∈ l.toList, key' x = key x := fun x hx => heq x (mem_node.2 (.inl hx))
      have hra : ∀ x ∈ r.toList, key' x = key x := fun x hx => heq x (mem_node.2 (.inr (.inr hx)))
      have ha : key' a = key a := heq a (by simp)
      refine ⟨fun x hx => ?_, fun x hx => ?_, ihl hl hla, ihr hr hra⟩
      · rw [hla x hx, ha]
        exact hle x hx
      · rw [hra x hx, ha]
        exact hgt x hx

/-- A non-strict search tree lists its keys in order. -/
theorem ordered_le_iff {t : LinkedTree} :
    t.Ordered (· ≤ ·) key ↔ t.toList.Pairwise fun a b => key a ≤ key b := by
  induction t with
  | nil => simp [Ordered]
  | node a l r ihl ihr =>
      rw [toList_node, List.pairwise_append, List.pairwise_cons, ← ihl, ← ihr]
      constructor
      · rintro ⟨hle, hgt, hl, hr⟩
        refine ⟨hl, ⟨hgt, hr⟩, fun x hx y hy => ?_⟩
        rcases List.mem_cons.1 hy with rfl | hy
        · exact hle x hx
        · exact le_trans (hle x hx) (hgt y hy)
      · rintro ⟨hl, ⟨hgt, hr⟩, hcross⟩
        exact ⟨fun x hx => hcross x hx a List.mem_cons_self, hgt, hl, hr⟩

/-- A search tree whose keys are all different is strict. -/
theorem Ordered.strict {t : LinkedTree} (h : t.Ordered (· ≤ ·) key) (hdistinct : (t.toList.map key).Nodup) :
    t.Ordered (· < ·) key := by
  induction t with
  | nil => exact trivial
  | node a l r ihl ihr =>
      obtain ⟨hle, hgt, hl, hr⟩ := h
      rw [toList_node, List.map_append, List.map_cons, List.nodup_append, List.nodup_cons] at hdistinct
      obtain ⟨hdl, ⟨hfresh, hdr⟩, _⟩ := hdistinct
      refine ⟨hle, fun x hx => lt_of_le_of_ne (hgt x hx) fun heq => hfresh ?_, ihl hl hdl, ihr hr hdr⟩
      rw [heq]
      exact List.mem_map_of_mem hx

/-- In a strict search tree no node occurs twice. -/
theorem Ordered.nodup {left right : Nat → Nat} {t : LinkedTree} (hs : t.Stored left right)
    (h : t.Ordered (· < ·) key) : t.toList.Nodup := by
  induction t with
  | nil => exact List.nodup_nil
  | node a l r ihl ihr =>
      obtain ⟨hal, har⟩ := hs.not_mem_below
      obtain ⟨_, _, _, hsl, hsr⟩ := hs
      obtain ⟨hle, hgt, hl, hr⟩ := h
      rw [toList_node, List.nodup_append]
      refine ⟨ihl hsl hl, List.nodup_cons.2 ⟨har, ihr hsr hr⟩, fun x hx y hy => ?_⟩
      rintro rfl
      rcases List.mem_cons.1 hy with rfl | hy
      · exact hal hx
      · exact absurd (lt_of_le_of_lt (hle x hx) (hgt x hy)) (lt_irrefl _)

end Ordered

/-! ## Insertion -/

/-- The tree with a new leaf at the end of the path that `right` describes. -/
def insertAt (right : Nat → Bool) (new : Nat) : LinkedTree → LinkedTree
  | nil => node new nil nil
  | node a l r => if right a then node a l (r.insertAt right new) else node a (l.insertAt right new) r

/-- The last node of the path, and its direction there. -/
def lastOn (right : Nat → Bool) : LinkedTree → Nat × Bool
  | nil => (0, false)
  | node a l r =>
    if right a then if r = nil then (a, true) else r.lastOn right
    else if l = nil then (a, false) else l.lastOn right

section Insert

variable {goRight : Nat → Bool} {new : Nat}

theorem insertAt_ne_nil (t : LinkedTree) : t.insertAt goRight new ≠ nil := by
  cases t with
  | nil => simp [insertAt]
  | node a l r =>
      rw [insertAt]
      split <;> simp

theorem root_insertAt {t : LinkedTree} (h : t ≠ nil) : (t.insertAt goRight new).root = t.root := by
  cases t with
  | nil => exact absurd rfl h
  | node a l r =>
      rw [insertAt]
      split <;> rfl

/-- The new node enters the nodes in order at one place. -/
theorem toList_insertAt (goRight : Nat → Bool) (new : Nat) (t : LinkedTree) : ∃ before after,
    t.toList = before ++ after ∧ (t.insertAt goRight new).toList = before ++ new :: after := by
  induction t with
  | nil => exact ⟨[], [], rfl, rfl⟩
  | node a l r ihl ihr =>
      rw [insertAt]
      split
      · obtain ⟨before, after, hr, hnew⟩ := ihr
        exact ⟨l.toList ++ a :: before, after, by simp [hr], by simp [hnew]⟩
      · obtain ⟨before, after, hl, hnew⟩ := ihl
        exact ⟨before, after ++ a :: r.toList, by simp [hl], by simp [hnew]⟩

theorem perm_insertAt (t : LinkedTree) : (t.insertAt goRight new).toList.Perm (new :: t.toList) := by
  obtain ⟨before, after, ht, hnew⟩ := toList_insertAt goRight new t
  rw [ht, hnew]
  exact List.perm_middle

theorem mem_insertAt {t : LinkedTree} {x : Nat} :
    x ∈ (t.insertAt goRight new).toList ↔ x = new ∨ x ∈ t.toList := by
  rw [(perm_insertAt t).mem_iff, List.mem_cons]

theorem insertAt_congr {goRight' : Nat → Bool} {t : LinkedTree}
    (h : ∀ a ∈ t.toList, goRight a = goRight' a) : t.insertAt goRight new = t.insertAt goRight' new := by
  induction t with
  | nil => rfl
  | node a l r ihl ihr =>
      rw [insertAt, insertAt, h a (by simp), ihl fun x hx => h x (mem_node.2 (.inl hx)),
        ihr fun x hx => h x (mem_node.2 (.inr (.inr hx)))]

theorem size_insertAt (t : LinkedTree) : (t.insertAt goRight new).size = t.size + 1 := by
  have h := (@perm_insertAt goRight new t).length_eq
  simpa [size] using h

theorem lastOn_mem {t : LinkedTree} (h : t ≠ nil) : (t.lastOn goRight).1 ∈ t.toList := by
  induction t with
  | nil => exact absurd rfl h
  | node a l r ihl ihr =>
      rw [lastOn]
      split
      · split
        · simp
        · rename_i hr
          exact mem_node.2 (.inr (.inr (ihr hr)))
      · split
        · simp
        · rename_i hl
          exact mem_node.2 (.inl (ihl hl))

/-- Linking the new leaf to the last node of the path stores the new tree. -/
theorem Stored.insertAt {left right : Nat → Nat} {t : LinkedTree} (h : t.Stored left right)
    (hnodup : t.toList.Nodup) (hne : t ≠ nil) (hzero : new ≠ 0) (hnew : new ∉ t.toList)
    {left' right' : Nat → Nat} (hleaf : left' new = 0 ∧ right' new = 0)
    (hlast : left' (t.lastOn goRight).1 =
        (if (t.lastOn goRight).2 then left (t.lastOn goRight).1 else new) ∧
      right' (t.lastOn goRight).1 =
        if (t.lastOn goRight).2 then new else right (t.lastOn goRight).1)
    (hother : ∀ a ∈ t.toList, a ≠ (t.lastOn goRight).1 → left' a = left a ∧ right' a = right a) :
    (t.insertAt goRight new).Stored left' right' := by
  induction t with
  | nil => exact absurd rfl hne
  | node a l r ihl ihr =>
      obtain ⟨ha, hleft, hright, hl, hr⟩ := h
      rw [toList_node, List.nodup_append, List.nodup_cons] at hnodup
      obtain ⟨hndl, ⟨har, hndr⟩, hcross⟩ := hnodup
      have hal : a ∉ l.toList := fun hal => hcross a hal a (by simp) rfl
      rw [lastOn] at hlast hother
      cases hdir : goRight a with
      | true =>
          rw [hdir] at hlast hother
          simp only [if_true] at hlast hother
          rw [LinkedTree.insertAt, if_pos hdir]
          by_cases hnil : r = nil
          · rw [if_pos hnil] at hlast hother
            refine ⟨ha, hlast.1.trans hleft, ?_, hl.congr fun x hx => ?_, ?_⟩
            · rw [hnil]
              exact hlast.2
            · exact hother x (mem_node.2 (.inl hx)) fun hxa : x = a => hal (hxa ▸ hx)
            · rw [hnil]
              exact ⟨hzero, hleaf.1, hleaf.2, trivial, trivial⟩
          · rw [if_neg hnil] at hlast hother
            have hlastr := @lastOn_mem goRight r hnil
            have hself := hother a (by simp) fun hal => har (hal ▸ hlastr)
            refine ⟨ha, hself.1.trans hleft, ?_, hl.congr fun x hx => ?_, ?_⟩
            · rw [root_insertAt hnil, hself.2, hright]
            · exact hother x (mem_node.2 (.inl hx))
                fun hxl => hcross x hx x (List.mem_cons.2 (.inr (hxl ▸ hlastr))) rfl
            · exact ihr hr hndr hnil (fun hin => hnew (mem_node.2 (.inr (.inr hin)))) hlast
                fun x hx => hother x (mem_node.2 (.inr (.inr hx)))
      | false =>
          rw [hdir] at hlast hother
          simp only [Bool.false_eq_true, if_false] at hlast hother
          rw [LinkedTree.insertAt, if_neg (by simp [hdir])]
          by_cases hnil : l = nil
          · rw [if_pos hnil] at hlast hother
            refine ⟨ha, ?_, hlast.2.trans hright, ?_, hr.congr fun x hx => ?_⟩
            · rw [hnil]
              exact hlast.1
            · rw [hnil]
              exact ⟨hzero, hleaf.1, hleaf.2, trivial, trivial⟩
            · exact hother x (mem_node.2 (.inr (.inr hx))) fun hxa : x = a => har (hxa ▸ hx)
          · rw [if_neg hnil] at hlast hother
            have hlastl := @lastOn_mem goRight l hnil
            have hself := hother a (by simp) fun hla => hal (hla ▸ hlastl)
            refine ⟨ha, ?_, hself.2.trans hright, ?_, hr.congr fun x hx => ?_⟩
            · rw [root_insertAt hnil, hself.1, hleft]
            · exact ihl hl hndl hnil (fun hin => hnew (mem_node.2 (.inl hin))) hlast
                fun x hx => hother x (mem_node.2 (.inl hx))
            · exact hother x (mem_node.2 (.inr (.inr hx)))
                fun hxr => hcross x (hxr ▸ hlastl) x (List.mem_cons.2 (.inr hx)) rfl

variable {β : Type*} [LinearOrder β] {key : Nat → β} {R : β → β → Prop}

/-- Going right where the new key is greater keeps a search tree. -/
theorem Ordered.insertAt {t : LinkedTree} (h : t.Ordered R key)
    (hR : ∀ x y, x < y → R x y) :
    (t.insertAt (fun a => decide (key a < key new)) new).Ordered R key := by
  induction t with
  | nil => exact ⟨by simp, by simp, trivial, trivial⟩
  | node a l r ihl ihr =>
      obtain ⟨hle, hgt, hl, hr⟩ := h
      rw [LinkedTree.insertAt]
      by_cases hlt : key a < key new
      · rw [if_pos (decide_eq_true hlt)]
        refine ⟨hle, fun x hx => ?_, hl, ihr hr⟩
        rcases mem_insertAt.1 hx with rfl | hx
        · exact hR _ _ hlt
        · exact hgt x hx
      · rw [if_neg (by simpa using hlt)]
        refine ⟨fun x hx => ?_, hgt, ihl hl, hr⟩
        rcases mem_insertAt.1 hx with rfl | hx
        · exact not_lt.1 hlt
        · exact hle x hx

end Insert

/-! ## Removal -/

/-- The leftmost node. -/
def minAddr : LinkedTree → Nat
  | nil => 0
  | node a nil _ => a
  | node _ (node b l r) _ => (node b l r).minAddr

/-- The tree without its leftmost node. -/
def deleteMin : LinkedTree → LinkedTree
  | nil => nil
  | node _ nil r => r
  | node a (node b l r) r' => node a (node b l r).deleteMin r'

/-- What hangs on the right of the leftmost node. -/
def afterMin : LinkedTree → LinkedTree
  | nil => nil
  | node _ nil r => r
  | node _ (node b l r) _ => (node b l r).afterMin

/-- The first node of the path where `found` holds, with what is below it. -/
def find (found right : Nat → Bool) : LinkedTree → LinkedTree
  | nil => nil
  | node a l r =>
    if found a then node a l r else if right a then r.find found right else l.find found right

/-- The tree without a node: a node with two children gives way to the leftmost one on its right,
whose place in the tree is vacated. -/
def removeRoot : LinkedTree → LinkedTree
  | nil => nil
  | node _ nil r => r
  | node _ l nil => l
  | node a l r => node a l r.deleteMin

/-- The node that is no longer in the tree then. -/
def vacated : LinkedTree → Nat
  | nil => 0
  | node a l r => if l = nil ∨ r = nil then a else r.minAddr

/-- The tree with the first such node removed. -/
def remove (found right : Nat → Bool) : LinkedTree → LinkedTree
  | nil => nil
  | node a l r =>
    if found a then (node a l r).removeRoot
    else if right a then node a l (r.remove found right) else node a (l.remove found right) r

section Remove

variable {found goRight : Nat → Bool}

theorem deleteMin_node {a : Nat} {l r : LinkedTree} (h : l ≠ nil) :
    (node a l r).deleteMin = node a l.deleteMin r := by
  cases l with
  | nil => exact absurd rfl h
  | node b l' r' => rfl

theorem minAddr_node {a : Nat} {l r : LinkedTree} (h : l ≠ nil) :
    (node a l r).minAddr = l.minAddr := by
  cases l with
  | nil => exact absurd rfl h
  | node b l' r' => rfl

theorem afterMin_node {a : Nat} {l r : LinkedTree} (h : l ≠ nil) :
    (node a l r).afterMin = l.afterMin := by
  cases l with
  | nil => exact absurd rfl h
  | node b l' r' => rfl

theorem removeRoot_node {a : Nat} {l r : LinkedTree} (hl : l ≠ nil) (hr : r ≠ nil) :
    (node a l r).removeRoot = node a l r.deleteMin := by
  cases l with
  | nil => exact absurd rfl hl
  | node b l' r' =>
      cases r with
      | nil => exact absurd rfl hr
      | node c l'' r'' => rfl

/-- The leftmost node comes first. -/
theorem toList_deleteMin {t : LinkedTree} (h : t ≠ nil) :
    t.toList = t.minAddr :: t.deleteMin.toList := by
  induction t with
  | nil => exact absurd rfl h
  | node a l r ihl _ =>
      by_cases hl : l = nil
      · rw [hl]
        rfl
      · rw [toList_node, ihl hl, deleteMin_node hl, minAddr_node hl]
        rfl

theorem minAddr_mem {t : LinkedTree} (h : t ≠ nil) : t.minAddr ∈ t.toList := by
  rw [toList_deleteMin h]
  exact List.mem_cons_self

theorem mem_of_mem_deleteMin {t : LinkedTree} {x : Nat} (h : x ∈ t.deleteMin.toList) :
    x ∈ t.toList := by
  by_cases hne : t = nil
  · rw [hne] at h
    exact absurd h (by simp [deleteMin])
  · rw [toList_deleteMin hne]
    exact List.mem_cons_of_mem _ h

theorem mem_of_mem_afterMin {t : LinkedTree} {x : Nat} (h : x ∈ t.afterMin.toList) :
    x ∈ t.toList := by
  induction t with
  | nil => exact h
  | node a l r ihl _ =>
      by_cases hl : l = nil
      · rw [hl] at h
        exact mem_node.2 (.inr (.inr h))
      · rw [afterMin_node hl] at h
        exact mem_node.2 (.inl (ihl h))

/-- In order, removing the root drops it, or the node after it if it has two children. -/
theorem toList_removeRoot {a : Nat} {l r : LinkedTree} :
    (l = nil ∨ r = nil → (node a l r).removeRoot.toList = l.toList ++ r.toList) ∧
    (l ≠ nil → r ≠ nil → (node a l r).toList = l.toList ++ a :: r.minAddr :: r.deleteMin.toList ∧
      (node a l r).removeRoot.toList = l.toList ++ a :: r.deleteMin.toList) := by
  refine ⟨fun h => ?_, fun hl hr => ⟨?_, ?_⟩⟩
  · cases l with
    | nil => rfl
    | node b l' r' =>
        cases r with
        | nil => exact (List.append_nil _).symm
        | node c l'' r'' => simp at h
  · rw [toList_node, toList_deleteMin hr]
  · rw [removeRoot_node hl hr]
    rfl

theorem perm_removeRoot {t : LinkedTree} (h : t ≠ nil) :
    t.toList.Perm (t.vacated :: t.removeRoot.toList) := by
  cases t with
  | nil => exact absurd rfl h
  | node a l r =>
      rw [vacated]
      split
      · rename_i hone
        rw [toList_removeRoot.1 hone, toList_node]
        exact List.perm_middle
      · rename_i htwo
        rw [not_or] at htwo
        obtain ⟨htree, hremoved⟩ := @toList_removeRoot a l r |>.2 htwo.1 htwo.2
        rw [htree, hremoved]
        have hmiddle := @List.perm_middle _ r.minAddr (l.toList ++ [a]) r.deleteMin.toList
        rwa [List.append_assoc, List.append_assoc] at hmiddle

/-- Removal acts on the part of the list that the found node covers. -/
theorem toList_remove (t : LinkedTree) : ∃ before after,
    t.toList = before ++ (t.find found goRight).toList ++ after ∧
    (t.remove found goRight).toList = before ++ (t.find found goRight).removeRoot.toList ++ after := by
  induction t with
  | nil => exact ⟨[], [], rfl, rfl⟩
  | node a l r ihl ihr =>
      rw [find, remove]
      split
      · exact ⟨[], [], by simp, by simp⟩
      · split
        · obtain ⟨before, after, hr, hnew⟩ := ihr
          refine ⟨l.toList ++ a :: before, after, ?_, ?_⟩
          · rw [toList_node, hr]
            simp
          · rw [toList_node, hnew]
            simp
        · obtain ⟨before, after, hl, hnew⟩ := ihl
          refine ⟨before, after ++ a :: r.toList, ?_, ?_⟩
          · rw [toList_node, hl]
            simp
          · rw [toList_node, hnew]
            simp

theorem perm_remove {t : LinkedTree} (h : t.find found goRight ≠ nil) :
    t.toList.Perm ((t.find found goRight).vacated :: (t.remove found goRight).toList) := by
  obtain ⟨before, after, ht, hnew⟩ := @toList_remove found goRight t
  rw [ht, hnew, List.append_assoc, List.append_assoc]
  refine (((perm_removeRoot h).append_right after).append_left before).trans ?_
  exact List.perm_middle

theorem mem_of_mem_find {t : LinkedTree} {x : Nat} (h : x ∈ (t.find found goRight).toList) :
    x ∈ t.toList := by
  obtain ⟨before, after, ht, _⟩ := @toList_remove found goRight t
  rw [ht]
  simp [h]

theorem mem_of_find {t : LinkedTree} {x : Nat} {l r : LinkedTree} (h : t.find found goRight = node x l r) :
    x ∈ t.toList := by
  refine @mem_of_mem_find found goRight t x ?_
  rw [h]
  exact root_mem (by simp)

theorem nodup_find {t : LinkedTree} (h : t.toList.Nodup) : (t.find found goRight).toList.Nodup := by
  obtain ⟨before, after, ht, _⟩ := @toList_remove found goRight t
  rw [ht] at h
  exact (List.nodup_append.1 (List.nodup_append.1 h).1).2.1

theorem mem_of_mem_removeRoot {t : LinkedTree} {x : Nat} (h : x ∈ t.removeRoot.toList) :
    x ∈ t.toList := by
  cases t with
  | nil => exact h
  | node a l r =>
      by_cases hone : l = nil ∨ r = nil
      · rw [toList_removeRoot.1 hone] at h
        rw [mem_node]
        rcases List.mem_append.1 h with h | h
        · exact .inl h
        · exact .inr (.inr h)
      · rw [not_or] at hone
        rw [(toList_removeRoot.2 hone.1 hone.2).2] at h
        rw [(toList_removeRoot.2 hone.1 hone.2).1]
        simp only [List.mem_append, List.mem_cons] at h ⊢
        tauto

theorem mem_of_mem_remove {t : LinkedTree} {x : Nat} (h : x ∈ (t.remove found goRight).toList) :
    x ∈ t.toList := by
  obtain ⟨before, after, ht, hnew⟩ := @toList_remove found goRight t
  rw [hnew] at h
  rw [ht]
  simp only [List.mem_append] at h ⊢
  rcases h with (h | h) | h
  · exact .inl (.inl h)
  · exact .inl (.inr (mem_of_mem_removeRoot h))
  · exact .inr h

variable {β : Type*} [LinearOrder β] {key : Nat → β} {R : β → β → Prop}

theorem Ordered.deleteMin {t : LinkedTree} (h : t.Ordered R key) : t.deleteMin.Ordered R key := by
  induction t with
  | nil => exact trivial
  | node a l r ihl _ =>
      obtain ⟨hle, hgt, hl, hr⟩ := h
      by_cases hnil : l = nil
      · rw [hnil]
        exact hr
      · rw [deleteMin_node hnil]
        exact ⟨fun x hx => hle x (mem_of_mem_deleteMin hx), hgt, ihl hl, hr⟩

/-- The leftmost key is the least. -/
theorem Ordered.minAddr_le {t : LinkedTree} (h : t.Ordered R key) (hR : ∀ x y, R x y → x ≤ y)
    {x : Nat} (hx : x ∈ t.toList) : key t.minAddr ≤ key x := by
  induction t with
  | nil => simp at hx
  | node a l r ihl _ =>
      obtain ⟨hle, hgt, hl, hr⟩ := h
      by_cases hnil : l = nil
      · subst hnil
        rcases mem_node.1 hx with hx | rfl | hx
        · simp at hx
        · exact le_refl _
        · exact hR _ _ (hgt x hx)
      · rw [minAddr_node hnil]
        have hmin := hle _ (minAddr_mem hnil)
        rcases mem_node.1 hx with hx | rfl | hx
        · exact ihl hl hx
        · exact hmin
        · exact le_trans hmin (hR _ _ (hgt x hx))

theorem found_find {t : LinkedTree} (h : t.find found goRight ≠ nil) :
    found (t.find found goRight).root = true := by
  induction t with
  | nil => exact absurd rfl h
  | node a l r ihl ihr =>
      rw [LinkedTree.find] at h ⊢
      split
      · rename_i hf
        exact hf
      · rename_i hf
        rw [if_neg hf] at h
        split
        · rename_i hdir
          rw [if_pos hdir] at h
          exact ihr h
        · rename_i hdir
          rw [if_neg hdir] at h
          exact ihl h

theorem find_congr {found' goRight' : Nat → Bool} {t : LinkedTree}
    (h : ∀ a ∈ t.toList, found a = found' a ∧ goRight a = goRight' a) :
    t.find found goRight = t.find found' goRight' := by
  induction t with
  | nil => rfl
  | node a l r ihl ihr =>
      obtain ⟨hfound, hright⟩ := h a (by simp)
      rw [LinkedTree.find, LinkedTree.find, hfound, hright, ihl fun x hx => h x (mem_node.2 (.inl hx)),
        ihr fun x hx => h x (mem_node.2 (.inr (.inr hx)))]

theorem remove_congr {found' goRight' : Nat → Bool} {t : LinkedTree}
    (h : ∀ a ∈ t.toList, found a = found' a ∧ goRight a = goRight' a) :
    t.remove found goRight = t.remove found' goRight' := by
  induction t with
  | nil => rfl
  | node a l r ihl ihr =>
      obtain ⟨hfound, hright⟩ := h a (by simp)
      rw [LinkedTree.remove, LinkedTree.remove, hfound, hright, ihl fun x hx => h x (mem_node.2 (.inl hx)),
        ihr fun x hx => h x (mem_node.2 (.inr (.inr hx)))]

theorem Ordered.find {t : LinkedTree} (h : t.Ordered R key) :
    (t.find found goRight).Ordered R key := by
  induction t with
  | nil => exact trivial
  | node a l r ihl ihr =>
      have hwhole := h
      obtain ⟨_, _, hl, hr⟩ := h
      rw [LinkedTree.find]
      split
      · exact hwhole
      · split
        · exact ihr hr
        · exact ihl hl

/-- The path to a key ends at a node with the key, if there is one. -/
theorem Ordered.find_eq_nil_iff {t : LinkedTree} (h : t.Ordered R key) (hR : ∀ x y, R x y → x ≤ y)
    {k : β} (hfound : ∀ a, found a = true ↔ k = key a) (hright : ∀ a, goRight a = true ↔ key a < k) :
    t.find found goRight = nil ↔ ∀ a ∈ t.toList, key a ≠ k := by
  induction t with
  | nil => exact iff_of_true rfl (by simp)
  | node a l r ihl ihr =>
      obtain ⟨hle, hgt, hl, hr⟩ := h
      rw [LinkedTree.find]
      split
      · rename_i hf
        refine iff_of_false (by simp) fun hall => ?_
        exact hall a (by simp) ((hfound a).1 hf).symm
      · rename_i hf
        have hne : key a ≠ k := fun hak => hf ((hfound a).2 hak.symm)
        split
        · rename_i hdir
          have hlt := (hright a).1 hdir
          rw [ihr hr]
          refine ⟨fun hall x hx => ?_, fun hall x hx => hall x (mem_node.2 (.inr (.inr hx)))⟩
          rcases mem_node.1 hx with hx | rfl | hx
          · exact ne_of_lt (lt_of_le_of_lt (hle x hx) hlt)
          · exact hne
          · exact hall x hx
        · rename_i hdir
          have hlt : k < key a := lt_of_le_of_ne (not_lt.1 fun h => hdir ((hright a).2 h)) hne.symm
          rw [ihl hl]
          refine ⟨fun hall x hx => ?_, fun hall x hx => hall x (mem_node.2 (.inl hx))⟩
          rcases mem_node.1 hx with hx | rfl | hx
          · exact hall x hx
          · exact hne
          · exact ne_of_gt (lt_of_lt_of_le hlt (hR _ _ (hgt x hx)))

/-- Removing a node with a free side keeps a search tree. -/
theorem Ordered.remove {t : LinkedTree} (h : t.Ordered R key) {x : Nat} {lx rx : LinkedTree}
    (hfind : t.find found goRight = node x lx rx) (hone : lx = nil ∨ rx = nil) :
    (t.remove found goRight).Ordered R key := by
  induction t with
  | nil => cases hfind
  | node a l r ihl ihr =>
      obtain ⟨hle, hgt, hl, hr⟩ := h
      rw [LinkedTree.find] at hfind
      rw [LinkedTree.remove]
      split
      · rename_i hfound
        rw [if_pos hfound] at hfind
        cases hfind
        rcases hone with rfl | rfl
        · exact hr
        · cases lx with
          | nil => exact trivial
          | node b l' r' => exact hl
      · rename_i hfound
        rw [if_neg hfound] at hfind
        split
        · rename_i hdir
          rw [if_pos hdir] at hfind
          exact ⟨hle, fun y hy => hgt y (mem_of_mem_remove hy), hl, ihr hr hfind⟩
        · rename_i hdir
          rw [if_neg hdir] at hfind
          exact ⟨fun y hy => hle y (mem_of_mem_remove hy), hgt, ihl hl hfind, hr⟩

/-- Removing a node with two children: the tree in which it takes over the key of its successor is a
search tree iff that key relates to the keys left on its right. -/
theorem Ordered.remove_iff {t : LinkedTree} (h : t.Ordered R key) (hR : ∀ x y, R x y → x ≤ y)
    (hnodup : t.toList.Nodup) {x : Nat} {lx rx : LinkedTree}
    (hfind : t.find found goRight = node x lx rx) (hlx : lx ≠ nil) (hrx : rx ≠ nil) :
    (t.remove found goRight).Ordered R (Function.update key x (key rx.minAddr)) ↔
      ∀ c ∈ rx.deleteMin.toList, R (key rx.minAddr) (key c) := by
  induction t with
  | nil => cases hfind
  | node a l r ihl ihr =>
      obtain ⟨hle, hgt, hl, hr⟩ := h
      rw [toList_node, List.nodup_append, List.nodup_cons] at hnodup
      obtain ⟨hndl, ⟨har, hndr⟩, hcross⟩ := hnodup
      have hal : a ∉ l.toList := fun hal => hcross a hal a (by simp) rfl
      have hlr : ∀ y ∈ l.toList, y ∉ r.toList := fun y hy hyr =>
        hcross y hy y (List.mem_cons_of_mem _ hyr) rfl
      rw [LinkedTree.find] at hfind
      rw [LinkedTree.remove]
      split
      · rename_i hfound
        rw [if_pos hfound] at hfind
        cases hfind
        rw [removeRoot_node hlx hrx]
        have hsame : ∀ y ∈ lx.toList, Function.update key x (key rx.minAddr) y = key y :=
          fun y hy => Function.update_of_ne (fun hya : y = x => hal (hya ▸ hy)) _ _
        have hsame' : ∀ y ∈ rx.deleteMin.toList, Function.update key x (key rx.minAddr) y = key y :=
          fun y hy => Function.update_of_ne
            (fun hya : y = x => har (hya ▸ mem_of_mem_deleteMin hy)) _ _
        constructor
        · rintro ⟨_, hright, _, _⟩ c hc
          have := hright c hc
          rwa [Function.update_self, hsame' c hc] at this
        · intro hall
          refine ⟨fun y hy => ?_, fun y hy => ?_, hl.congr hsame, hr.deleteMin.congr hsame'⟩
          · rw [Function.update_self, hsame y hy]
            exact le_trans (hle y hy) (hR _ _ (hgt _ (minAddr_mem hrx)))
          · rw [Function.update_self, hsame' y hy]
            exact hall y hy
      · rename_i hfound
        rw [if_neg hfound] at hfind
        have hbelow : ∀ s : LinkedTree, s.find found goRight = node x lx rx →
            x ∈ s.toList ∧ rx.minAddr ∈ s.toList := by
          intro s hs
          refine ⟨mem_of_find hs, ?_⟩
          apply @mem_of_mem_find found goRight
          rw [hs]
          exact mem_node.2 (.inr (.inr (minAddr_mem hrx)))
        split
        · rename_i hdir
          rw [if_pos hdir] at hfind
          obtain ⟨hxr, hmr⟩ := hbelow r hfind
          have hax : Function.update key x (key rx.minAddr) a = key a :=
            Function.update_of_ne (fun hax : a = x => har (hax ▸ hxr)) _ _
          have hsame : ∀ y ∈ l.toList, Function.update key x (key rx.minAddr) y = key y :=
            fun y hy => Function.update_of_ne (fun hyx : y = x => hlr y hy (hyx ▸ hxr)) _ _
          rw [← ihr hr hndr hfind]
          constructor
          · rintro ⟨_, _, _, hnew⟩
            exact hnew
          · intro hnew
            refine ⟨fun y hy => ?_, fun y hy => ?_, hl.congr hsame, hnew⟩
            · rw [hax, hsame y hy]
              exact hle y hy
            · rw [hax]
              by_cases hyx : y = x
              · rw [hyx, Function.update_self]
                exact hgt _ hmr
              · rw [Function.update_of_ne hyx]
                exact hgt y (mem_of_mem_remove hy)
        · rename_i hdir
          rw [if_neg hdir] at hfind
          obtain ⟨hxl, hml⟩ := hbelow l hfind
          have hax : Function.update key x (key rx.minAddr) a = key a :=
            Function.update_of_ne (fun hax : a = x => hal (hax ▸ hxl)) _ _
          have hsame : ∀ y ∈ r.toList, Function.update key x (key rx.minAddr) y = key y :=
            fun y hy => Function.update_of_ne (fun hyx : y = x => hlr x hxl (hyx ▸ hy)) _ _
          rw [← ihl hl hndl hfind]
          constructor
          · rintro ⟨_, _, hnew, _⟩
            exact hnew
          · intro hnew
            refine ⟨fun y hy => ?_, fun y hy => ?_, hnew, hr.congr hsame⟩
            · rw [hax]
              by_cases hyx : y = x
              · rw [hyx, Function.update_self]
                exact hle _ hml
              · rw [Function.update_of_ne hyx]
                exact hle y (mem_of_mem_remove hy)
            · rw [hax, hsame y hy]
              exact hgt y hy

/-- The tree without the node found, in which that takes over the key of the node whose place is vacated: when
it is a search tree. -/
theorem Ordered.moved_iff {t : LinkedTree} (h : t.Ordered R key) (hR : ∀ x y, R x y → x ≤ y)
    (hnodup : t.toList.Nodup) {x : Nat} {lx rx : LinkedTree} (hfind : t.find found goRight = node x lx rx)
    {key' : Nat → β} (hmoved : ∀ a ∈ (t.remove found goRight).toList,
      key' a = key (if a = x then (node x lx rx).vacated else a)) :
    (t.remove found goRight).Ordered R key' ↔
      lx = nil ∨ rx = nil ∨ ∀ c ∈ rx.deleteMin.toList, R (key rx.minAddr) (key c) := by
  have hperm := @perm_remove found goRight t (by simp [hfind])
  rw [hfind] at hperm
  have hvac := (List.nodup_cons.1 (hperm.nodup_iff.1 hnodup)).1
  by_cases hone : lx = nil ∨ rx = nil
  · rw [vacated, if_pos hone] at hvac
    have hsame : ∀ a ∈ (t.remove found goRight).toList, key' a = key a := by
      intro a ha
      have hax : a ≠ x := fun hax => hvac (hax ▸ ha)
      rw [hmoved a ha, if_neg hax]
    refine iff_of_true ((h.remove hfind hone).congr hsame) ?_
    rcases hone with hone | hone
    · exact .inl hone
    · exact .inr (.inl hone)
  · rw [vacated, if_neg hone] at hmoved
    rw [not_or] at hone
    have hsame : ∀ a ∈ (t.remove found goRight).toList, key' a = Function.update key x (key rx.minAddr) a := by
      intro a ha
      rw [hmoved a ha]
      by_cases hax : a = x
      · rw [if_pos hax, hax, Function.update_self]
      · rw [if_neg hax, Function.update_of_ne hax]
    have hiff := h.remove_iff hR hnodup hfind hone.1 hone.2
    constructor
    · intro hnew
      exact .inr (.inr (hiff.1 (hnew.congr fun a ha => (hsame a ha).symm)))
    · rintro (hnil | hnil | hall)
      · exact absurd hnil hone.1
      · exact absurd hnil hone.2
      · exact (hiff.2 hall).congr hsame

/-- A search tree that need not be strict stays one. -/
theorem Ordered.moved {t : LinkedTree} (h : t.Ordered (· ≤ ·) key) (hnodup : t.toList.Nodup) {x : Nat}
    {lx rx : LinkedTree} (hfind : t.find found goRight = node x lx rx) {key' : Nat → β}
    (hmoved : ∀ a ∈ (t.remove found goRight).toList,
      key' a = key (if a = x then (node x lx rx).vacated else a)) :
    (t.remove found goRight).Ordered (· ≤ ·) key' := by
  have hbelow : (node x lx rx).Ordered (· ≤ ·) key := hfind ▸ h.find
  refine (h.moved_iff (fun _ _ h => h) hnodup hfind hmoved).2 (.inr (.inr fun c hc => ?_))
  exact hbelow.2.2.2.minAddr_le (fun _ _ h => h) (mem_of_mem_deleteMin hc)

end Remove

/-! ## Paths past the node found -/

/-- The path comes past no node with two children where `found` holds, and goes on below one with a child. -/
def Quiet (found right : Nat → Bool) : LinkedTree → Prop
  | nil => True
  | node a l r =>
    if found a then (l = nil ∨ r = nil) ∧ l.Quiet found right ∧ r.Quiet found right
    else if right a then r.Quiet found right else l.Quiet found right

/-- The paths below a node that is removed: from its children, or from below its successor. -/
def QuietBelow (found right : Nat → Bool) : LinkedTree → Prop
  | nil => True
  | node _ l r =>
    if l = nil ∨ r = nil then l.Quiet found right ∧ r.Quiet found right else r.afterMin.Quiet found right

section Quiet

variable {found right : Nat → Bool} {t : LinkedTree}

theorem quiet_of_not_found (h : ∀ a ∈ t.toList, found a = false) : t.Quiet found right := by
  induction t with
  | nil => exact trivial
  | node a l r ihl ihr =>
      rw [Quiet, if_neg (by simp [h a (by simp)])]
      split
      · exact ihr fun x hx => h x (mem_node.2 (.inr (.inr hx)))
      · exact ihl fun x hx => h x (mem_node.2 (.inl hx))

theorem quiet_congr {found' right' : Nat → Bool} (h : ∀ a ∈ t.toList, found a = found' a ∧ right a = right' a) :
    t.Quiet found right ↔ t.Quiet found' right' := by
  induction t with
  | nil => exact Iff.rfl
  | node a l r ihl ihr =>
      obtain ⟨hfound, hright⟩ := h a (by simp)
      rw [Quiet, Quiet, hfound, hright, ihl fun x hx => h x (mem_node.2 (.inl hx)),
        ihr fun x hx => h x (mem_node.2 (.inr (.inr hx)))]

theorem quietBelow_congr {found' right' : Nat → Bool}
    (h : ∀ a ∈ t.toList, found a = found' a ∧ right a = right' a) :
    t.QuietBelow found right ↔ t.QuietBelow found' right' := by
  cases t with
  | nil => exact Iff.rfl
  | node a l r =>
      have hr := fun x hx => h x (mem_node.2 (.inr (.inr hx)))
      rw [QuietBelow, QuietBelow, quiet_congr fun x hx => h x (mem_node.2 (.inl hx)), quiet_congr hr,
        quiet_congr fun x hx => hr x (mem_of_mem_afterMin hx)]

/-- Below the node found nothing else is. -/
theorem quietBelow_of_unique (hnodup : t.toList.Nodup) (h : ∀ a ∈ t.toList, found a = true → a = t.root) :
    t.QuietBelow found right := by
  cases t with
  | nil => exact trivial
  | node x l r =>
      rw [toList_node, List.nodup_append, List.nodup_cons] at hnodup
      obtain ⟨_, ⟨hxr, _⟩, hdisjoint⟩ := hnodup
      have hleft : ∀ a ∈ l.toList, found a = false := fun a ha => Bool.eq_false_iff.2 fun hfound =>
        hdisjoint a ha x List.mem_cons_self (h a (mem_node.2 (.inl ha)) hfound)
      have hright : ∀ a ∈ r.toList, found a = false := by
        intro a ha
        refine Bool.eq_false_iff.2 fun hfound => hxr ?_
        have hax : a = x := h a (mem_node.2 (.inr (.inr ha))) hfound
        exact hax ▸ ha
      rw [QuietBelow]
      split
      · exact ⟨quiet_of_not_found hleft, quiet_of_not_found hright⟩
      · exact quiet_of_not_found fun a ha => hright a (mem_of_mem_afterMin ha)

end Quiet

end LinkedTree
