import Mathlib.Data.Multiset.Basic
import Prac.AvlInsert
import Prac.BstInsert

/-!
# Valid AVL trees

* `AVL.accepted_iff` — `check_avl` accepts the AVL trees in order, and `AVL.Accepted.exists_tree` — nothing
  else.
* `AVL.insert_spec` — the insertion into a valid AVL tree, in both modes.
-/

namespace Prac

namespace AVL

open BST (keyOf pairOf pairs)

variable {oramSize : Nat}

/-! ## The check -/

/-- The tests at a node: the heights of its subtrees differ by at most one, and its bits say how. -/
theorem bits_ok_iff (leftheight rightheight : Nat) (leftbal rightbal : Bool) :
    let heightgap : Int := leftheight - rightheight
    heightgap.natAbs < 2 ∧
        (if heightgap = -1 then rightbal && !leftbal
          else if heightgap = 1 then leftbal && !rightbal
          else if heightgap = 0 then !rightbal && !leftbal
          else false) = true ↔
      leftheight ≤ rightheight + 1 ∧ rightheight ≤ leftheight + 1 ∧
        leftbal = decide (rightheight < leftheight) ∧ rightbal = decide (leftheight < rightheight) := by
  intro heightgap
  have hgap : heightgap = leftheight - rightheight := rfl
  rcases Nat.lt_trichotomy leftheight rightheight with hlt | heq | hgt
  · rw [decide_eq_false (by omega : ¬ rightheight < leftheight), decide_eq_true hlt]
    by_cases hone : heightgap = -1
    · rw [if_pos hone, Bool.and_eq_true, Bool.not_eq_true']
      exact ⟨fun ⟨_, hr, hl⟩ => ⟨by omega, by omega, hl, hr⟩, fun ⟨_, _, hl, hr⟩ => ⟨by omega, hr, hl⟩⟩
    · rw [if_neg hone, if_neg (by omega), if_neg (by omega)]
      simp only [Bool.false_eq_true, and_false, false_iff]
      omega
  · rw [decide_eq_false (by omega : ¬ rightheight < leftheight),
      decide_eq_false (by omega : ¬ leftheight < rightheight), if_neg (by omega), if_neg (by omega), if_pos (by omega)]
    rw [Bool.and_eq_true, Bool.not_eq_true', Bool.not_eq_true']
    exact ⟨fun ⟨_, hr, hl⟩ => ⟨by omega, by omega, hl, hr⟩, fun ⟨_, _, hl, hr⟩ => ⟨by omega, hr, hl⟩⟩
  · rw [decide_eq_true hgt, decide_eq_false (by omega : ¬ leftheight < rightheight)]
    by_cases hone : heightgap = 1
    · rw [if_neg (by omega), if_pos hone, Bool.and_eq_true, Bool.not_eq_true']
      exact ⟨fun ⟨_, hl, hr⟩ => ⟨by omega, by omega, hl, hr⟩, fun ⟨_, _, hl, hr⟩ => ⟨by omega, hl, hr⟩⟩
    · rw [if_neg (by omega), if_neg hone, if_neg (by omega)]
      simp only [Bool.false_eq_true, and_false, false_iff]
      omega

/-- What the check computes on a tree. -/
theorem checkAvl_eq {R : Nodes} {t : LinkedTree} (hs : t.Stored (linkOf R false) (linkOf R true)) :
    ∀ {fuel height : Nat} {node lo hi : Value} {ok avlok bbok : Bool}, node.toNat = t.root →
      checkAvl oramSize R fuel node lo hi = some (ok, avlok, bbok, height) →
      (ok = true ↔ t.Ordered (· ≤ ·) (keyOf R) ∧
        ∀ a ∈ t.toList, lo.toNat ≤ keyOf R a ∧ keyOf R a ≤ hi.toNat) ∧
      (avlok = true ∧ bbok = true ↔ t.Balanced ∧ t.BalanceBits (balOf R false) (balOf R true)) ∧
      height = t.height := by
  induction t with
  | nil =>
      intro fuel height node lo hi ok avlok bbok hroot h
      cases fuel with
      | zero => cases h
      | succ fuel =>
          have hzero : node = 0 := BitVec.eq_of_toNat_eq hroot
          rw [checkAvl, if_pos hzero] at h
          cases h
          simp [LinkedTree.Ordered, LinkedTree.Balanced, LinkedTree.BalanceBits]
  | node a l r ihl ihr =>
      intro fuel height node lo hi ok avlok bbok hroot h
      obtain ⟨ha, hleft, hright, hsl, hsr⟩ := hs
      cases fuel with
      | zero => cases h
      | succ fuel =>
          obtain rfl : node.toNat = a := hroot
          have hzero : node ≠ 0 := fun h0 => ha (by rw [h0]; rfl)
          rw [checkAvl, if_neg hzero] at h
          split at h
          · dsimp only at h
            split at h
            · rename_i leftok leftavlok leftbbok leftheight rightok rightavlok rightbbok rightheight hl hr
              obtain ⟨hkl, hbl, rfl⟩ := ihl hsl hleft hl
              obtain ⟨hkr, hbr, rfl⟩ := ihr hsr hright hr
              have hself : (R.holds node.toNat).key.toNat = keyOf R node.toNat := rfl
              rw [hself] at hkl hkr
              have hbits : ∀ d, bal d (R.holds node.toNat).pointers = balOf R d node.toNat := fun d => rfl
              cases h
              refine ⟨?_, ?_, rfl⟩
              · simp only [Bool.and_eq_true, hkl, hkr, decide_eq_true_eq, BitVec.le_def, hself]
                change _ ↔ ((∀ x ∈ l.toList, _) ∧ (∀ x ∈ r.toList, _) ∧ _ ∧ _) ∧ _
                constructor
                · rintro ⟨⟨⟨⟨hol, hinl⟩, hor, hinr⟩, hlo⟩, hhi⟩
                  refine ⟨⟨fun x hx => (hinl x hx).2, fun x hx => (hinr x hx).1, hol, hor⟩, ?_⟩
                  intro x hx
                  rcases LinkedTree.mem_node.1 hx with hx | rfl | hx
                  · exact ⟨(hinl x hx).1, le_trans (hinl x hx).2 hhi⟩
                  · exact ⟨hlo, hhi⟩
                  · exact ⟨le_trans hlo (hinr x hx).1, (hinr x hx).2⟩
                · rintro ⟨⟨hle, hgt, hol, hor⟩, hin⟩
                  have hin0 := hin node.toNat (by simp)
                  refine ⟨⟨⟨⟨hol, fun x hx => ⟨?_, hle x hx⟩⟩, hor, fun x hx => ⟨hgt x hx, ?_⟩⟩, hin0.1⟩, hin0.2⟩
                  · exact (hin x (LinkedTree.mem_node.2 (.inl hx))).1
                  · exact (hin x (LinkedTree.mem_node.2 (.inr (.inr hx)))).2
              · have hnode := bits_ok_iff l.height r.height (balOf R false node.toNat) (balOf R true node.toNat)
                simp only [getLeftBal_eq_bal, getRightBal_eq_bal, hbits, Bool.and_eq_true, decide_eq_true_eq]
                constructor
                · rintro ⟨⟨⟨hgap, havll⟩, havlr⟩, ⟨hbb, hbbl⟩, hbbr⟩
                  obtain ⟨hlr, hrl, hbitl, hbitr⟩ := hnode.1 ⟨hgap, hbb⟩
                  obtain ⟨hball, hbitsl⟩ := hbl.1 ⟨havll, hbbl⟩
                  obtain ⟨hbalr, hbitsr⟩ := hbr.1 ⟨havlr, hbbr⟩
                  exact ⟨⟨hlr, hrl, hball, hbalr⟩, hbitl, hbitr, hbitsl, hbitsr⟩
                · rintro ⟨⟨hlr, hrl, hball, hbalr⟩, hbitl, hbitr, hbitsl, hbitsr⟩
                  obtain ⟨hgap, hbb⟩ := hnode.2 ⟨hlr, hrl, hbitl, hbitr⟩
                  obtain ⟨havll, hbbl⟩ := hbl.2 ⟨hball, hbitsl⟩
                  obtain ⟨havlr, hbbr⟩ := hbr.2 ⟨hbalr, hbitsr⟩
                  exact ⟨⟨⟨hgap, havll⟩, havlr⟩, ⟨hbb, hbbl⟩, hbbr⟩
            · cases h
          · cases h

/-- Where the check ends, the links form a tree. -/
theorem checkAvl_tree {R : Nodes} : ∀ {fuel : Nat} {node lo hi : Value} {res : Bool × Bool × Bool × Nat},
    checkAvl oramSize R fuel node lo hi = some res → ∃ t : LinkedTree, node.toNat = t.root ∧
      t.Stored (linkOf R false) (linkOf R true) ∧ ∀ a ∈ t.toList, a < oramSize := by
  intro fuel
  induction fuel with
  | zero => intro node lo hi res h; cases h
  | succ fuel ih =>
      intro node lo hi res h
      unfold checkAvl at h
      split at h
      · rename_i hzero
        exact ⟨.nil, by simp [hzero], trivial, by simp⟩
      · rename_i hzero
        split at h
        · rename_i hlt
          dsimp only at h
          split at h
          · rename_i hleft hright
            obtain ⟨l, hlroot, hl, hlin⟩ := ih hleft
            obtain ⟨r, hrroot, hr, hrin⟩ := ih hright
            refine ⟨.node node.toNat l r, rfl, ⟨?_, hlroot, hrroot, hl, hr⟩, ?_⟩
            · intro h0
              exact hzero (BitVec.eq_of_toNat_eq h0)
            · intro a ha
              rcases LinkedTree.mem_node.1 ha with ha | rfl | ha
              · exact hlin a ha
              · exact hlt
              · exact hrin a ha
          · cases h
        · cases h

/-- The check ends on a tree. -/
theorem checkAvl_isSome {R : Nodes} {t : LinkedTree} (hs : t.Stored (linkOf R false) (linkOf R true))
    (hin : ∀ a ∈ t.toList, a < oramSize) : ∀ {fuel : Nat} {node lo hi : Value},
      node.toNat = t.root → t.size < fuel → ∃ res, checkAvl oramSize R fuel node lo hi = some res := by
  induction t with
  | nil =>
      intro fuel node lo hi hroot hfuel
      cases fuel with
      | zero => omega
      | succ fuel =>
          have hzero : node = 0 := BitVec.eq_of_toNat_eq hroot
          exact ⟨_, by rw [checkAvl, if_pos hzero]⟩
  | node a l r ihl ihr =>
      intro fuel node lo hi hroot hfuel
      obtain ⟨ha, hleft, hright, hsl, hsr⟩ := hs
      cases fuel with
      | zero => omega
      | succ fuel =>
          obtain rfl : node.toNat = a := hroot
          have hzero : node ≠ 0 := fun h0 => ha (by rw [h0]; rfl)
          rw [LinkedTree.size_node] at hfuel
          obtain ⟨⟨leftok, leftavlok, leftbbok, leftheight⟩, hl⟩ := @ihl hsl
            (fun x hx => hin x (LinkedTree.mem_node.2 (.inl hx))) fuel
            (getAVLLeftPtr (R.holds node.toNat).pointers) lo (R.holds node.toNat).key hleft (by omega)
          obtain ⟨⟨rightok, rightavlok, rightbbok, rightheight⟩, hr⟩ := @ihr hsr
            (fun x hx => hin x (LinkedTree.mem_node.2 (.inr (.inr hx)))) fuel
            (getAVLRightPtr (R.holds node.toNat).pointers) (R.holds node.toNat).key hi hright (by omega)
          rw [checkAvl, if_neg hzero, if_pos (hin node.toNat (by simp))]
          dsimp only
          rw [hl, hr]
          exact ⟨_, rfl⟩

/-- On a tree in the memory, `check_avl` accepts exactly the AVL trees in order. -/
theorem accepted_iff {b : AVL oramSize} {t : LinkedTree} (hroot : b.root.toNat = t.root)
    (hs : t.Stored (linkOf b.oram false) (linkOf b.oram true)) (hin : ∀ a ∈ t.toList, a < oramSize) :
    b.Accepted ↔ t.Ordered (· ≤ ·) (keyOf b.oram) ∧ t.Avl (linkOf b.oram) (balOf b.oram) := by
  have hall : ∀ a ∈ t.toList, (0 : Value).toNat ≤ keyOf b.oram a ∧
      keyOf b.oram a ≤ (~~~(0 : Value)).toNat :=
    fun a _ => ⟨Nat.zero_le _, Nat.le_of_lt_succ (b.oram.key a).isLt⟩
  constructor
  · rintro ⟨fuel, height, hcheck⟩
    obtain ⟨hok, havl, _⟩ := checkAvl_eq hs hroot hcheck
    obtain ⟨hbalanced, hbits⟩ := havl.1 ⟨rfl, rfl⟩
    exact ⟨(hok.1 rfl).1, hs, hbalanced, hbits⟩
  · rintro ⟨hord, _, hbalanced, hbits⟩
    obtain ⟨⟨ok, avlok, bbok, height⟩, hcheck⟩ := @checkAvl_isSome _ _ _ hs hin (t.size + 1) b.root 0
      (~~~0) hroot (Nat.lt_succ_self _)
    obtain ⟨hok, havl, _⟩ := checkAvl_eq hs hroot hcheck
    obtain ⟨havlok, hbbok⟩ := havl.2 ⟨hbalanced, hbits⟩
    exact ⟨t.size + 1, height, by rw [hcheck, hok.2 ⟨hord, hall⟩, havlok, hbbok]⟩

/-- What `check_avl` accepts is an AVL tree in order. -/
theorem Accepted.exists_tree {b : AVL oramSize} (h : b.Accepted) : ∃ t : LinkedTree,
    b.root.toNat = t.root ∧ t.Ordered (· ≤ ·) (keyOf b.oram) ∧ t.Avl (linkOf b.oram) (balOf b.oram) := by
  obtain ⟨fuel, height, hcheck⟩ := h
  obtain ⟨t, hroot, hs, hin⟩ := checkAvl_tree hcheck
  exact ⟨t, hroot, (accepted_iff hroot hs hin).1 ⟨fuel, height, hcheck⟩⟩

theorem Valid.accepted {b : AVL oramSize} {t : LinkedTree} (h : b.Valid t) (hne : t ≠ .nil) :
    b.Accepted := by
  have htree := h.tree hne
  have hroom := h.room
  refine (accepted_iff htree.root htree.avl.stored fun a ha => ?_).2 ⟨h.ordered, htree.avl⟩
  have hlt := htree.inside a ha
  omega

/-! ## Insertion -/

/-- The address that the next insertion writes to. -/
def slot (b : AVL oramSize) : Nat :=
  if b.numItems = 0 then 1
  else match b.emptyLocations with
    | insert_address :: _ => insert_address.toNat
    | [] => b.numItems + 1

/-- `cur_max_index` after the next insertion. -/
def nextMax (b : AVL oramSize) : Nat :=
  if b.numItems = 0 ∨ b.emptyLocations = [] then b.curMaxIndex + 1 else b.curMaxIndex

/-- The next slot is free, and the addresses in use stay inside the memory and small enough for a
link. -/
structure SlotFree (b : AVL oramSize) (t : LinkedTree) : Prop where
  ne_zero : b.slot ≠ 0
  fresh : b.slot ∉ t.toList
  le : b.slot ≤ b.nextMax
  room : b.nextMax < oramSize
  fits : b.nextMax < 2 ^ 31

/-- The memory with a node written at an address. -/
def setNode (mem : Nodes) (addr : Nat) (node : Node) : Nodes :=
  ⟨Function.update mem.key addr node.key, Function.update mem.pointers addr node.pointers,
    Function.update mem.value addr node.value⟩

@[simp] theorem setNode_key (mem : Nodes) (addr : Nat) (node : Node) :
    (setNode mem addr node).key = Function.update mem.key addr node.key := rfl
@[simp] theorem setNode_pointers (mem : Nodes) (addr : Nat) (node : Node) :
    (setNode mem addr node).pointers = Function.update mem.pointers addr node.pointers := rfl
@[simp] theorem setNode_value (mem : Nodes) (addr : Nat) (node : Node) :
    (setNode mem addr node).value = Function.update mem.value addr node.value := rfl

theorem setNode_of_ne {mem : Nodes} {addr a : Nat} (h : a ≠ addr) (node : Node) :
    (setNode mem addr node).holds a = mem.holds a := by
  simp [Nodes.holds, setNode, Function.update_of_ne h]

theorem set_flat (mem : Nodes) (cur_max_index idx : Nat) (node : Node) :
    mem.set (flat oramSize cur_max_index) idx node = setNode mem idx node := by
  simp [Nodes.set, Shape.set, flat, Shape.cell, setNode]

/-- A node written outside the tree leaves the tree. -/
theorem AvlAt.setNode {bound bound' : Nat} {mem : Nodes} {ptr : Value} {t : LinkedTree}
    (h : AvlAt bound mem ptr t) (hle : bound ≤ bound') {s : Nat} (hs : s ∉ t.toList) (node : Node) :
    AvlAt bound' (setNode mem s node) ptr t :=
  ⟨h.root, avl_congr h.avl fun x hx => Function.update_of_ne (fun hxs : x = s => hs (hxs ▸ hx)) _ _,
    fun a ha => lt_of_lt_of_le (h.inside a ha) hle, h.nodup⟩

theorem AvlAt.size_lt {bound : Nat} {mem : Nodes} {ptr : Value} {t : LinkedTree}
    (h : AvlAt bound mem ptr t) (hpos : 0 < bound) : t.size < bound := by
  have hzero : 0 ∉ t.toList := fun hin => h.avl.stored.ne_zero 0 hin rfl
  have hsub : (0 :: t.toList) ⊆ List.range bound := by
    intro a ha
    rw [List.mem_range]
    rcases List.mem_cons.1 ha with rfl | ha
    · exact hpos
    · exact h.inside a ha
  have hlength := ((List.nodup_cons.2 ⟨hzero, h.nodup⟩).subperm hsub).length_le
  rwa [List.length_cons, List.length_range] at hlength

/-- A node written to the slot, and the insertion into the tree. -/
theorem insert_below {b : AVL oramSize} (hcount : b.numItems ≠ 0) (hle : b.slot ≤ b.nextMax)
    (hroom : b.nextMax < oramSize) (hfits : b.nextMax < 2 ^ 31) (node : Node) :
    ∃ (addr : Value) (b₁ : AVL oramSize),
      (∀ OPTIMIZED, b.insert OPTIMIZED node =
        some (insertBelow OPTIMIZED b₁ (AVL_TTL (b.numItems + 1)) addr node.key)) ∧
      addr.toNat = b.slot ∧ b₁.oram = setNode b.oram b.slot node ∧ b₁.root = b.root ∧
      b₁.numItems = b.numItems + 1 ∧ b₁.curMaxIndex = b.nextMax ∧
      b₁.emptyLocations = b.emptyLocations.tail := by
  unfold insert
  unfold slot at hle ⊢
  unfold nextMax at hle hroom hfits ⊢
  rw [if_neg hcount] at hle ⊢
  cases hempty : b.emptyLocations with
  | cons addr rest =>
      rw [hempty, if_neg (by simp [hcount])] at hle
      rw [hempty, if_neg (by simp [hcount])] at hroom
      refine ⟨addr, { b with
        oram := setNode b.oram addr.toNat node, numItems := b.numItems + 1, emptyLocations := rest },
        fun OPTIMIZED => ?_, rfl, rfl, rfl, rfl, ?_, rfl⟩
      · rw [if_neg hcount]
        dsimp only
        rw [Nodes.write_of_reaches ((flat_room hroom).reaches addr (Nat.lt_succ_of_le hle)) b.oram node]
        rfl
      · rw [if_neg (by simp [hcount])]
  | nil =>
      rw [hempty, if_pos (.inr rfl)] at hle hroom hfits
      dsimp only at hle ⊢
      refine ⟨BitVec.ofNat 64 (b.numItems + 1), { b with
        oram := setNode b.oram (b.numItems + 1) node, numItems := b.numItems + 1,
        curMaxIndex := b.curMaxIndex + 1 }, fun OPTIMIZED => ?_, ?_, rfl, rfl, rfl, ?_, hempty⟩
      · rw [if_neg hcount, if_pos (lt_of_le_of_lt hle hroom), set_flat, hempty]
      · rw [BitVec.toNat_ofNat]
        exact Nat.mod_eq_of_lt (by omega)
      · rw [if_pos (.inr rfl)]

/-- What an insertion leaves. -/
structure Inserted (b b' : AVL oramSize) (t t' : LinkedTree) (node : Node) : Prop where
  valid : b'.Valid t'
  perm : t'.toList.Perm (b.slot :: t.toList)
  key : b'.oram.key = Function.update b.oram.key b.slot node.key
  value : b'.oram.value = Function.update b.oram.value b.slot node.value
  empty : b'.emptyLocations = if b.numItems = 0 then b.emptyLocations else b.emptyLocations.tail

theorem Inserted.pairs_eq {b b' : AVL oramSize} {t t' : LinkedTree} {node : Node}
    (h : Inserted b b' t t' node) (hfresh : b.slot ∉ t.toList) :
    pairs b'.oram t' = (node.key, node.value) ::ₘ pairs b.oram t := by
  unfold pairs
  rw [Multiset.coe_eq_coe.2 (h.perm.map (pairOf b'.oram)), List.map_cons, ← Multiset.cons_coe]
  congr 1
  · rw [pairOf, h.key, h.value, Function.update_self, Function.update_self]
  · congr 1
    refine List.map_congr_left fun a ha => ?_
    have hne : a ≠ b.slot := fun has => hfresh (has ▸ ha)
    rw [pairOf, pairOf, h.key, h.value, Function.update_of_ne hne, Function.update_of_ne hne]

theorem Valid.nil_iff {b : AVL oramSize} {t : LinkedTree} (h : b.Valid t) : b.numItems = 0 ↔ t = .nil := by
  rw [h.items]
  cases t with
  | nil => simp
  | node a l r => simp [LinkedTree.size_node]

/-- The first node of an AVL. -/
theorem insert_empty {b : AVL oramSize} (h : b.Valid .nil) (hslot : b.SlotFree .nil) {node : Node}
    (hptrs : node.pointers = 0) (hkey : node.key.toNat < 2 ^ 63) : ∃ b' : AVL oramSize,
      (∀ OPTIMIZED, b.insert OPTIMIZED node = some b') ∧
      Inserted b b' .nil (.node 1 .nil .nil) node := by
  have hcount : b.numItems = 0 := h.items
  have hroom := hslot.room
  have hfits := hslot.fits
  have hone : b.slot = 1 := by rw [slot, if_pos hcount]
  have hmax : b.nextMax = b.curMaxIndex + 1 := by rw [nextMax, if_pos (.inl hcount)]
  rw [hmax] at hroom hfits
  obtain ⟨hkey0, hptrs0, hvalue0⟩ := Node.mk.inj h.zero
  have hset : (b.oram.set (Shape.whole oramSize).val 0 0).set (Shape.whole oramSize).val 1 node =
      setNode b.oram 1 node := by
    rw [Nodes.set_whole, Nodes.set_whole, setNode]
    have hself : ∀ f : Words, f 0 = 0 → Function.update f 0 0 = f := fun f hf => by
      rw [← hf, Function.update_eq_self]
    simp only [Node.zero_key, Node.zero_pointers, Node.zero_value, hself _ hkey0, hself _ hptrs0,
      hself _ hvalue0]
  refine ⟨{ b with oram := setNode b.oram 1 node, root := 1, numItems := 1,
                   curMaxIndex := b.curMaxIndex + 1 }, fun OPTIMIZED => ?_,
    ⟨⟨fun _ => ⟨rfl, ?_, ?_, ?_⟩, ?_, ?_, ?_, rfl, hroom, hfits⟩, ?_, ?_, ?_, ?_⟩⟩
  · rw [insert, if_pos hcount, if_pos (by omega)]
    exact congrArg (fun oram => some (AVL.mk oram 1 1 (b.curMaxIndex + 1) b.emptyLocations)) hset
  · have hw : (setNode b.oram 1 node).pointers 1 = 0 := by
      rw [setNode_pointers, Function.update_self, hptrs]
    exact avl_leaf (by decide) hw
  · simp
  · simp
  · simp [LinkedTree.Ordered]
  · intro a ha
    obtain rfl : a = 1 := by simpa using ha
    rw [keyOf, setNode_key, Function.update_self]
    exact hkey
  · exact (setNode_of_ne (by decide) node).trans h.zero
  · rw [hone]
    exact .refl _
  · rw [hone]
    rfl
  · rw [hone]
    rfl
  · rw [if_pos hcount]

/-- The insertion takes the path of the search tree. -/
theorem insertAt_goRight {mem : Nodes} {t : LinkedTree} {a : Nat} {key : Value}
    (hkey : keyOf mem a < 2 ^ 63) (hself : keyOf mem a = key.toNat)
    (hkeys : ∀ x ∈ t.toList, keyOf mem x < 2 ^ 63) : t.insertAt (goRight mem key) a =
      t.insertAt (fun x => decide (keyOf mem x < keyOf mem a)) a := by
  refine LinkedTree.insertAt_congr fun x hx => ?_
  rw [hself] at hkey ⊢
  exact congrArg (fun c : Bool × Bool × Bool => c.2.2) (BST.compare_node hkey (hkeys x hx))

/-- What an insertion into a tree with nodes leaves, whatever the new key: an AVL tree with the new node at its
place in the order that the comparisons give. -/
structure Linked (b b' : AVL oramSize) (t t' : LinkedTree) (node : Node) : Prop where
  tree : AvlAt (b'.curMaxIndex + 1) b'.oram b'.root t'
  list : t'.toList = (t.insertAt (goRight (setNode b.oram b.slot node) node.key) b.slot).toList
  only : OnlyLinks (setNode b.oram b.slot node) b'.oram t'.toList
  items : b'.numItems = b.numItems + 1
  max : b'.curMaxIndex = b.nextMax
  empty : b'.emptyLocations = b.emptyLocations.tail

theorem insert_linked {b : AVL oramSize} {t : LinkedTree} (h : b.Valid t) (hslot : b.SlotFree t)
    (hne : t ≠ .nil) {node : Node} (hptrs : node.pointers = 0) : ∃ b' t',
      (∀ OPTIMIZED, b.insert OPTIMIZED node = some b') ∧ Linked b b' t t' node := by
  have hcount : b.numItems ≠ 0 := fun h0 => hne (h.nil_iff.1 h0)
  have htree := h.tree hne
  obtain ⟨addr, b₁, hins, haddr, horam, hroot, hitems, hmax, hempty⟩ :=
    insert_below hcount hslot.le hslot.room hslot.fits node
  have hle : b.curMaxIndex + 1 ≤ b.nextMax + 1 := by
    unfold nextMax
    split <;> omega
  have htree₁ : AvlAt (b₁.curMaxIndex + 1) b₁.oram b₁.root t := by
    rw [horam, hroot, hmax]
    exact htree.setNode hle hslot.fresh node
  have hTTL : t.height ≤ AVL_TTL (b.numItems + 1) := by
    have hsize := htree.size_lt (Nat.succ_pos _)
    have hfits := h.fits
    refine le_trans (height_le_TTL htree.avl.balanced (by omega)) (AVL_TTL_mono ?_)
    rw [h.items]
    exact Nat.le_succ _
  have hfresh : Fresh (b₁.curMaxIndex + 1) b₁.oram addr t := by
    refine ⟨haddr ▸ hslot.ne_zero, ?_, haddr ▸ hslot.fresh, ?_⟩
    · rw [haddr, hmax]
      exact Nat.lt_succ_of_le hslot.le
    · rw [haddr, horam]
      exact (Function.update_self _ _ _).trans hptrs
  have hzero₁ : b₁.oram.holds 0 = 0 := by
    rw [horam, setNode_of_ne hslot.ne_zero.symm]
    exact h.zero
  obtain ⟨mem, root, t', hbelow, htree', hlist, honly⟩ :=
    @insertBelow_spec _ b₁ t _ addr node.key htree₁ hne hTTL hzero₁ hfresh (hmax ▸ hslot.room) (hmax ▸ hslot.fits)
  rw [horam, haddr] at hlist
  rw [horam] at honly
  exact ⟨_, t', fun OPTIMIZED => (hins OPTIMIZED).trans (congrArg some (hbelow OPTIMIZED)),
    ⟨htree', hlist, honly, hitems, hmax, hempty⟩⟩

/-- **Insertion.**  The new node becomes a node of an AVL tree in order, in both modes. -/
theorem insert_spec {b : AVL oramSize} {t : LinkedTree} (h : b.Valid t) (hslot : b.SlotFree t)
    {node : Node} (hptrs : node.pointers = 0) (hkey : node.key.toNat < 2 ^ 63) : ∃ b' t',
      (∀ OPTIMIZED, b.insert OPTIMIZED node = some b') ∧ Inserted b b' t t' node := by
  by_cases hne : t = .nil
  · subst hne
    obtain ⟨b', hins, hinserted⟩ := insert_empty h hslot hptrs hkey
    exact ⟨b', _, hins, hinserted⟩
  obtain ⟨b', t', hins, hlinked⟩ := insert_linked h hslot hne hptrs
  have hstay : ∀ a ∈ t.toList, a ≠ b.slot := fun a ha has => hslot.fresh (has ▸ ha)
  have hkeys : ∀ a ∈ t.toList, keyOf (setNode b.oram b.slot node) a = keyOf b.oram a := fun a ha =>
    congrArg BitVec.toNat (Function.update_of_ne (hstay a ha) _ _)
  have hself : keyOf (setNode b.oram b.slot node) b.slot = node.key.toNat :=
    congrArg BitVec.toNat (Function.update_self _ _ _)
  have hpath := insertAt_goRight (hself.trans_lt hkey) hself fun a ha => by
    rw [hkeys a ha]
    exact h.keys a ha
  have hperm : t'.toList.Perm (b.slot :: t.toList) := by
    rw [hlinked.list]
    exact LinkedTree.perm_insertAt t
  have hkey' : b'.oram.key = Function.update b.oram.key b.slot node.key := hlinked.only.key
  refine ⟨b', t', hins, ⟨⟨fun _ => hlinked.tree, ?_, ?_, ?_, ?_, hlinked.max ▸ hslot.room,
    hlinked.max ▸ hslot.fits⟩, hperm, hkey', hlinked.only.value, ?_⟩⟩
  · have hord := @LinkedTree.Ordered.insertAt b.slot _ _ _ _ _ (h.ordered.congr hkeys) fun _ _ => le_of_lt
    rw [← hpath, LinkedTree.ordered_le_iff, ← hlinked.list, ← LinkedTree.ordered_le_iff] at hord
    refine hord.congr fun a _ => ?_
    rw [keyOf, keyOf, hlinked.only.key]
  · intro a ha
    rw [keyOf, hkey']
    rcases List.mem_cons.1 (hperm.mem_iff.1 ha) with rfl | ha
    · rw [Function.update_self]
      exact hkey
    · rw [Function.update_of_ne (hstay a ha)]
      exact h.keys a ha
  · have hnot : 0 ∉ t'.toList := fun hin => hlinked.tree.avl.stored.ne_zero 0 hin rfl
    have hzero := (@setNode_of_ne b.oram _ _ hslot.ne_zero.symm node).trans h.zero
    rw [← hzero, Nodes.holds, Nodes.holds, hlinked.only.key, hlinked.only.value, hlinked.only.pointers 0 hnot]
  · rw [hlinked.items, h.items, LinkedTree.size, LinkedTree.size, hperm.length_eq, List.length_cons]
  · rw [hlinked.empty, if_neg fun h0 => hne (h.nil_iff.1 h0)]

/-- **Insertion preserves the AVL tree**, in both modes, and adds exactly the new pair. -/
theorem insert_correct {b : AVL oramSize} {t : LinkedTree} (h : b.Valid t) (hslot : b.SlotFree t)
    {node : Node} (hptrs : node.pointers = 0) (hkey : node.key.toNat < 2 ^ 63) (OPTIMIZED : Bool) :
    ∃ b' t', b.insert OPTIMIZED node = some b' ∧ b'.Valid t' ∧ b'.Accepted ∧
      pairs b'.oram t' = (node.key, node.value) ::ₘ pairs b.oram t := by
  obtain ⟨b', t', hins, hinserted⟩ := insert_spec h hslot hptrs hkey
  refine ⟨b', t', hins OPTIMIZED, hinserted.valid, hinserted.valid.accepted ?_,
    hinserted.pairs_eq hslot.fresh⟩
  rintro rfl
  exact absurd hinserted.perm.length_eq (by simp)

/-- The key 10 at the root and 20 on its right. -/
def twoNodes : AVL 8 where
  oram := {
    key := fun a => if a = 1 then 10 else if a = 2 then 20 else 0
    pointers := fun a => if a = 1 then 9 else 0
    value := fun a => if a = 1 then 100 else if a = 2 then 200 else 0 }
  root := 1
  numItems := 2
  curMaxIndex := 2
  emptyLocations := []

theorem twoNodes_valid : twoNodes.Valid (.node 1 .nil (.node 2 .nil .nil)) := by
  refine ⟨fun _ => ⟨rfl, ⟨by decide, by decide, by decide⟩, by decide, by decide⟩, ?_, by decide, rfl, rfl,
    by decide, by decide⟩
  rw [LinkedTree.ordered_le_iff]
  decide

/-- The key 30 makes the root lean to the right, and 20 takes its place. -/
theorem insert_correct_two : ∃ b' t', twoNodes.insert true ⟨30, 0, 300⟩ = some b' ∧ b'.Valid t' ∧
    b'.Accepted ∧ pairs b'.oram t' = {(30, 300), (10, 100), (20, 200)} :=
  insert_correct twoNodes_valid ⟨by decide, by decide, by decide, by decide, by decide⟩ rfl (by decide) true

end AVL

end Prac
