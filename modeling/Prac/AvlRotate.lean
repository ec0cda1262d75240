import Prac.AvlTree

/-!
# What a rotation does

* `AVL.Relinked` — one link of a word is new, and the rest of the word is as it was.
* `AVL.rotate_relinked` — the three links that `rotate` changes.
* `AVL.rotate_stored` — in the memory, the child takes the place of the parent, and the nodes stay in order.
-/

namespace Prac

namespace AVL

/-- The word `w'` is `w` with the link `v` in direction `d`. -/
structure Relinked (d : Bool) (v w w' : Value) : Prop where
  link_eq : link d w' = v
  link_other : link (!d) w' = link (!d) w
  bal_eq : ∀ e, bal e w' = bal e w

theorem Relinked.setLink {d : Bool} {v : Value} (hv : v.toNat < 2 ^ 31) (w : Value) :
    Relinked d v w (setLink d w v) := by
  refine ⟨?_, ?_, fun e => bal_setLink hv⟩
  · rw [link_setLink hv, if_pos rfl]
  · rw [link_setLink hv, if_neg (by simp)]

/-- A word has its own links. -/
theorem Relinked.self (d : Bool) (w : Value) : Relinked d (link d w) w w := ⟨rfl, rfl, fun _ => rfl⟩

section Rotation

variable {gp_pointers p_ptr p_pointers c_ptr c_pointers : Value} {dir_gpp dir_pc F_gp : Bool}

/-- The results of a rotation: `gp[dir_gpp]` is `c` if there is a grandparent, `p[dir_pc]` is what
`c[!dir_pc]` was, and `c[!dir_pc]` is `p`. -/
structure Rotated (gp_pointers p_ptr p_pointers c_ptr c_pointers : Value) (dir_gpp dir_pc F_gp : Bool)
    (new : Value × Value × Value) : Prop where
  gp : Relinked dir_gpp (if F_gp then link dir_gpp gp_pointers else c_ptr) gp_pointers new.1
  p : Relinked dir_pc (link (!dir_pc) c_pointers) p_pointers new.2.1
  c : Relinked (!dir_pc) p_ptr c_pointers new.2.2

theorem rotate_relinked (hp : p_ptr.toNat < 2 ^ 31) (hc : c_ptr.toNat < 2 ^ 31) :
    Rotated gp_pointers p_ptr p_pointers c_ptr c_pointers dir_gpp dir_pc F_gp
      (rotate gp_pointers p_ptr p_pointers c_ptr c_pointers dir_gpp dir_pc true F_gp) := by
  rw [rotate_true hp hc]
  refine ⟨?_, .setLink (link_lt _ _) _, .setLink hp _⟩
  cases F_gp with
  | false => exact .setLink hc _
  | true => exact .self dir_gpp gp_pointers

/-- The subtree `t` of `p`, which has the child `c` in direction `d`; the grandparent `gp` is outside. -/
structure Hangs (mem : Nodes) (gp p c : Nat) (d : Bool) (t : LinkedTree) : Prop where
  stored : t.Stored (linkOf mem false) (linkOf mem true)
  nodup : t.toList.Nodup
  root : t.root = p
  parent : p ≠ 0
  child : linkOf mem d p = c
  child_ne : c ≠ 0
  outside : gp ∉ t.toList

theorem Hangs.branches {mem : Nodes} {gp p c : Nat} {d : Bool} {t : LinkedTree} (h : Hangs mem gp p c d t) :
    ∃ w u y, t = .branch d p (.branch d c w u) y := by
  have hne : t ≠ .nil := fun hnil => h.parent (h.root.symm.trans (hnil ▸ rfl))
  obtain ⟨x, y, hbranch⟩ := LinkedTree.exists_branch hne d
  rw [h.root] at hbranch
  have hstored := h.stored
  rw [hbranch, LinkedTree.stored_branch] at hstored
  have hroot : x.root = c := hstored.2.1.symm.trans h.child
  have hx : x ≠ .nil := fun hnil => h.child_ne (hroot.symm.trans (hnil ▸ rfl))
  obtain ⟨w, u, hchild⟩ := LinkedTree.exists_branch hx d
  rw [hroot] at hchild
  exact ⟨w, u, y, hchild ▸ hbranch⟩

/-- The memory with the words of the grandparent, the parent and the child. -/
def writeRotated (mem : Nodes) (gp p c : Nat) (new : Value × Value × Value) : Nodes :=
  setPointers (setPointers (setPointers mem c new.2.2) p new.2.1) gp new.1

/-- The child takes the place of the parent, and the nodes stay in order. -/
theorem Rotated.stored {new : Value × Value × Value}
    (h : Rotated gp_pointers p_ptr p_pointers c_ptr c_pointers dir_gpp dir_pc F_gp new) {mem : Nodes}
    {gp : Nat} {t : LinkedTree} (hangs : Hangs mem gp p_ptr.toNat c_ptr.toNat dir_pc t)
    (hp : mem.pointers p_ptr.toNat = p_pointers) (hc : mem.pointers c_ptr.toNat = c_pointers) :
    let mem' := writeRotated mem gp p_ptr.toNat c_ptr.toNat new
    ∃ t' : LinkedTree, t'.Stored (linkOf mem' false) (linkOf mem' true) ∧ t'.root = c_ptr.toNat ∧
      t'.toList = t.toList := by
  intro mem'
  obtain ⟨w, u, y, rfl⟩ := hangs.branches
  have hpin : p_ptr.toNat ∈ (LinkedTree.branch dir_pc p_ptr.toNat (.branch dir_pc c_ptr.toNat w u) y).toList :=
    LinkedTree.mem_branch.2 (.inl rfl)
  have hcin : c_ptr.toNat ∈ (LinkedTree.branch dir_pc c_ptr.toNat w u).toList :=
    LinkedTree.mem_branch.2 (.inl rfl)
  have hpgp : p_ptr.toNat ≠ gp := fun heq => hangs.outside (heq ▸ hpin)
  have hcgp : c_ptr.toNat ≠ gp := fun heq =>
    hangs.outside (heq ▸ LinkedTree.mem_branch.2 (.inr (.inl hcin)))
  have hcp : c_ptr.toNat ≠ p_ptr.toNat := fun heq =>
    (LinkedTree.nodup_branch.1 hangs.nodup).1 (heq ▸ hcin)
  have hpnew : mem'.pointers p_ptr.toNat = new.2.1 := by
    simp only [mem', writeRotated, setPointers_pointers]
    rw [Function.update_of_ne hpgp, Function.update_self]
  have hcnew : mem'.pointers c_ptr.toNat = new.2.2 := by
    simp only [mem', writeRotated, setPointers_pointers]
    rw [Function.update_of_ne hcgp, Function.update_of_ne hcp, Function.update_self]
  have hcother := h.c.link_other
  rw [Bool.not_not] at hcother
  have hstored := @LinkedTree.Stored.single _ _ _ (linkOf mem') _ _ _ _ hangs.stored hangs.nodup ?_ ?_ ?_ ?_ ?_
  · exact ⟨_, hstored, LinkedTree.root_branch, LinkedTree.toList_single _ _ _ _ _⟩
  · rw [linkOf, linkOf, hpnew, hc, h.p.link_eq]
  · rw [linkOf, linkOf, hpnew, hp, h.p.link_other]
  · rw [linkOf, linkOf, hcnew, hc, hcother]
  · rw [linkOf, hcnew, h.c.link_eq]
  · intro a ha hap hac e
    have hagp : a ≠ gp := fun heq => hangs.outside (heq ▸ ha)
    simp only [linkOf, mem', writeRotated, setPointers_pointers]
    rw [Function.update_of_ne hagp, Function.update_of_ne hap, Function.update_of_ne hac]

end Rotation

/-- **A rotation.**  With `isReal` exactly the links of `Rotated` change, and in any memory with the three words
the subtree of `p` becomes one of `c` with the nodes in the same order, which is linked from the grandparent if
there is one.  Without `isReal` the words stay. -/
theorem rotate_correct {p_ptr c_ptr : Value} (hp : p_ptr.toNat < 2 ^ 31) (hc : c_ptr.toNat < 2 ^ 31)
    (gp_pointers p_pointers c_pointers : Value) (dir_gpp dir_pc isReal F_gp : Bool) :
    let new := rotate gp_pointers p_ptr p_pointers c_ptr c_pointers dir_gpp dir_pc isReal F_gp
    let p := p_ptr.toNat
    let c := c_ptr.toNat
    (isReal = true → Rotated gp_pointers p_ptr p_pointers c_ptr c_pointers dir_gpp dir_pc F_gp new ∧
      ∀ (mem : Nodes) (gp : Nat) (t : LinkedTree), Hangs mem gp p c dir_pc t →
        mem.pointers gp = gp_pointers → mem.pointers p = p_pointers → mem.pointers c = c_pointers →
          ∃ t' : LinkedTree, t'.Stored (linkOf (writeRotated mem gp p c new) false)
              (linkOf (writeRotated mem gp p c new) true) ∧ t'.root = c ∧ t'.toList = t.toList ∧
            (F_gp = false → linkOf (writeRotated mem gp p c new) dir_gpp gp = t'.root)) ∧
      (isReal = false → new = (gp_pointers, p_pointers, c_pointers)) := by
  intro new p c
  constructor
  · rintro rfl
    have hrotated := @rotate_relinked gp_pointers p_ptr p_pointers c_ptr c_pointers dir_gpp dir_pc F_gp hp hc
    refine ⟨hrotated, fun mem gp t hangs _ hpw hcw => ?_⟩
    obtain ⟨t', hstored, hroot, hlist⟩ := hrotated.stored hangs hpw hcw
    refine ⟨t', hstored, hroot, hlist, fun hF => ?_⟩
    have hlink : link dir_gpp new.1 = c_ptr := by
      have hgp := hrotated.gp.link_eq
      rwa [if_neg (by simp [hF])] at hgp
    rw [hroot, linkOf, writeRotated, setPointers_pointers, Function.update_self]
    exact congrArg BitVec.toNat hlink
  · rintro rfl
    exact rotate_false _ _ _ _ _ _ _ _

/-- Three nodes in a line to the right, at the addresses 1 to 3. -/
def line : Nodes := ⟨fun _ => 0, fun a => if a = 1 then 8 else if a = 2 then 12 else 0, fun _ => 0⟩

/-- Rotating the link from 2 to 3 there, or not. -/
theorem rotate_correct_line :
    (∃ t : LinkedTree, t.root = 3 ∧ t.toList = [2, 3] ∧
      linkOf (writeRotated line 1 2 3 (rotate 8 2 12 3 0 true true true false)) true 1 = t.root) ∧
    rotate 8 2 12 3 0 true true false false = (8, 12, 0) := by
  obtain ⟨t, _, hroot, hlist, hlink⟩ :=
    ((@rotate_correct 2 3 (by decide) (by decide) 8 12 0 true true true false).1 rfl).2 line 1
      (.node 2 .nil (.node 3 .nil .nil)) ⟨by decide, by decide, rfl, by decide, rfl, by decide, by decide⟩
      rfl rfl rfl
  exact ⟨⟨t, hroot, hlist, hlink rfl⟩,
    (@rotate_correct 2 3 (by decide) (by decide) 8 12 0 true true false false).2 rfl⟩

end AVL

end Prac
