import Mathlib.Data.Multiset.Basic
import Prac.BstTree

/-!
# Insertion and lookup in a BST

* `insertRec_eq` — the recursion finds the last node of the path to the key, whatever the shape.
* `isKey`, `isAbove` — what the comparison of a key with that of a node says.
* `Holds` — the tree of a BST and the count of its items; `insert_leaf` — one more leaf on the tree.
* `lookupRec_spec` — the recursion finds a key of the tree.
* `insert_lookup_correct` — both operations on every accepted tree.
-/

namespace Prac

namespace BST

variable {oramSize : Nat}

/-- Go right at the nodes with smaller keys. -/
def goRight (mem : Nodes) (key : Value) (addr : Nat) : Bool := decide (keyOf mem addr < key.toNat)

theorem le_maxint {x : Value} (h : x.toNat < 2 ^ 63) : x ≤ maxint :=
  BitVec.le_def.2 (Nat.le_of_lt_succ h)

/-- The comparison at a node. -/
theorem compare_node {mem : Nodes} {a : Nat} {key : Value} (hkey : key.toNat < 2 ^ 63)
    (ha : keyOf mem a < 2 ^ 63) :
    signedCompare (key - mem.key a) = (decide (key.toNat < keyOf mem a),
      decide (key.toNat = keyOf mem a), goRight mem key a) :=
  signedCompare_sub (le_maxint hkey) (le_maxint ha)

/-- The key is the one of the node. -/
def isKey (mem : Nodes) (key : Value) (addr : Nat) : Bool := decide (key = mem.key addr)

/-- The comparison says that the key is greater. -/
def isAbove (mem : Nodes) (key : Value) (addr : Nat) : Bool := (signedCompare (key - mem.key addr)).2.2

theorem compare_isKey (mem : Nodes) (key : Value) (addr : Nat) :
    ∃ lt, signedCompare (key - mem.key addr) = (lt, isKey mem key addr, isAbove mem key addr) :=
  ⟨_, Prod.ext rfl (Prod.ext (decide_eq_decide.2 sub_eq_zero) rfl)⟩

theorem isAbove_of_isKey {mem : Nodes} {key : Value} {addr : Nat} (h : isKey mem key addr = true) :
    isAbove mem key addr = false := by
  rw [isAbove, of_decide_eq_true h, sub_self]
  rfl

/-- The comparison with keys below `2^63` is that of the numbers. -/
theorem isAbove_of_lt {mem : Nodes} {key : Value} (hkey : key.toNat < 2 ^ 63) {a : Nat}
    (ha : keyOf mem a < 2 ^ 63) : isAbove mem key a = goRight mem key a :=
  congrArg (fun c : Bool × Bool × Bool => c.2.2) (compare_node hkey ha)

/-! ## Insertion -/

/-- Past the insertion the recursion only counts down. -/
theorem insertRec_dummy (mem : Nodes) (key : Value) (TTL : Nat) (ptr : Value) :
    (insertRec oramSize mem key TTL ptr true).2 = false := by
  induction TTL generalizing ptr with
  | zero => rfl
  | succ TTL ih =>
      unfold insertRec
      dsimp only
      simp only [Bool.not_true, Bool.false_and, Bool.xor_false, Bool.false_xor]
      exact ih _

theorem decide_select_eq_zero {f : Bool} {l r : Value} :
    decide (select f l r = 0) = decide ((select f l r).toNat = 0) := by
  rw [decide_eq_decide]
  exact ⟨fun h => by rw [h]; rfl, fun h => BitVec.eq_of_toNat_eq h⟩

/-- The recursion returns the last node of the path and the direction there. -/
theorem insertRec_eq {mem : Nodes} {key : Value} {t : LinkedTree} :
    ∀ {TTL : Nat} {ptr : Value}, t ≠ .nil → ptr.toNat = t.root →
      t.Stored (leftLink mem) (rightLink mem) → (∀ a ∈ t.toList, a < oramSize) → t.size ≤ TTL →
      let res := insertRec oramSize mem key TTL ptr false
      (res.1.toNat, res.2) = t.lastOn (isAbove mem key) := by
  induction t with
  | nil => intro TTL ptr hne; exact absurd rfl hne
  | node a l r ihl ihr =>
      intro TTL ptr _ hroot hs hin hTTL
      obtain ⟨_, hleft, hright, hl, hr⟩ := hs
      rw [LinkedTree.size_node] at hTTL
      cases TTL with
      | zero => omega
      | succ TTL =>
          obtain rfl : ptr.toNat = a := hroot
          have hTTLl : l.size ≤ TTL := by omega
          have hTTLr : r.size ≤ TTL := by omega
          have hself := hin ptr.toNat (by simp)
          unfold insertRec
          dsimp only
          rw [read_flat mem hself]
          have hgt : (compareKeys (mem.holds ptr.toNat).key key).2 = isAbove mem key ptr.toNat := rfl
          rw [hgt, selectBits_extract, decide_select_eq_zero, Bool.not_false, Bool.true_and,
            Bool.false_xor, LinkedTree.lastOn]
          cases hdir : isAbove mem key ptr.toNat with
          | true =>
              have hnext : (select true (extractLeftPtr (mem.holds ptr.toNat).pointers)
                  (extractRightPtr (mem.holds ptr.toNat).pointers)).toNat = r.root := hright
              rw [hnext, if_pos rfl]
              by_cases hnil : r = .nil
              · rw [if_pos hnil, decide_eq_true (by rw [hnil]; rfl), insertRec_dummy]
                rfl
              · rw [if_neg hnil, decide_eq_false (fun h0 => hnil ((hr.root_eq_zero).1 h0)), Bool.false_and,
                  Bool.false_xor]
                exact ihr hnil hnext hr (fun x hx => hin x (LinkedTree.mem_node.2 (.inr (.inr hx))))
                  hTTLr
          | false =>
              have hnext : (select false (extractLeftPtr (mem.holds ptr.toNat).pointers)
                  (extractRightPtr (mem.holds ptr.toNat).pointers)).toNat = l.root := hleft
              rw [hnext, if_neg (by simp)]
              by_cases hnil : l = .nil
              · rw [if_pos hnil, decide_eq_true (by rw [hnil]; rfl), insertRec_dummy]
                rfl
              · rw [if_neg hnil, decide_eq_false (fun h0 => hnil ((hl.root_eq_zero).1 h0)), Bool.false_and,
                  Bool.false_xor]
                exact ihl hnil hnext hl (fun x hx => hin x (LinkedTree.mem_node.2 (.inl hx))) hTTLl

/-- The tree of a BST, whose size is `num_items`.  The root of an empty BST is not looked at. -/
structure Holds (b : BST oramSize) (t : LinkedTree) : Prop where
  count : b.numItems = t.size
  tree : t ≠ .nil → b.HasTree t

/-- The address that the next insertion writes to. -/
def slot (b : BST oramSize) : Nat :=
  if b.numItems = 0 then 1
  else match b.emptyLocations with
    | insert_address :: _ => insert_address.toNat
    | [] => 1 + (b.numItems + 1)

/-- The next slot is free, inside the memory and small enough for a link.  A fresh one is also below `2 ^ 31` in
the source, where it is an `int`. -/
structure SlotFree (b : BST oramSize) (t : LinkedTree) : Prop where
  ne_zero : b.slot ≠ 0
  fresh : b.slot ∉ t.toList
  lt : b.slot < oramSize
  link : b.slot < 2 ^ 32

/-- A node written outside the tree leaves the tree. -/
theorem TreeAt.write {mem : Nodes} {ptr : Value} {t : LinkedTree} (h : TreeAt oramSize mem ptr t)
    {s : Nat} (hs : s ∉ t.toList) (node : Node) :
    TreeAt oramSize ⟨Function.update mem.key s node.key, Function.update mem.pointers s node.pointers,
      Function.update mem.value s node.value⟩ ptr t := by
  refine ⟨h.root, h.stored.congr fun a ha => ?_, h.inside, h.nodup⟩
  have hne : a ≠ s := fun has => hs (has ▸ ha)
  simp only [leftLink, rightLink, Function.update_of_ne hne, and_self]

/-- The recursion and the link add the new node as a leaf, and change no keys and values. -/
theorem link_spec {b : BST oramSize} {t : LinkedTree} (ht : b.HasTree t) (hne : t ≠ .nil) {key addr : Value}
    (hzero : addr.toNat ≠ 0) (hnew : addr.toNat ∉ t.toList) (hlt : addr.toNat < oramSize)
    (hlink : addr.toNat < 2 ^ 32) (hleaf : b.oram.pointers addr.toNat = 0) {TTL : Nat}
    (hTTL : t.size ≤ TTL) : ∃ wptr pointers, wptr ∈ t.toList ∧
      b.link TTL addr key =
        { b with oram := { b.oram with pointers := Function.update b.oram.pointers wptr pointers } } ∧
      TreeAt oramSize (b.link TTL addr key).oram b.root (t.insertAt (isAbove b.oram key) addr.toNat) := by
  have hrec := @insertRec_eq _ _ key _ _ _ hne ht.root ht.stored ht.inside hTTL
  have hmem := @LinkedTree.lastOn_mem (isAbove b.oram key) t hne
  cases hres : insertRec oramSize b.oram key TTL b.root false with
  | mk wptr direction =>
      dsimp only at hrec
      rw [hres] at hrec
      rw [← hrec] at hmem
      dsimp only at hmem hrec
      have hw := ht.inside _ hmem
      let left := extractLeftPtr (b.oram.pointers wptr.toNat)
      let right := extractRightPtr (b.oram.pointers wptr.toNat)
      have hleftlt : (select (!direction) left addr).toNat < 2 ^ 32 := by
        cases direction with
        | false => exact hlink
        | true => exact extractLeftPtr_lt _
      have hrightlt : (select direction right addr).toNat < 2 ^ 32 := by
        cases direction with
        | false => exact extractRightPtr_lt _
        | true => exact hlink
      let pointers := setRightPtr (setLeftPtr (b.oram.pointers wptr.toNat)
        (select (!direction) left addr)) (select direction right addr)
      let mem : Nodes :=
        { b.oram with pointers := Function.update b.oram.pointers wptr.toNat pointers }
      have hlinked : b.link TTL addr key = { b with oram := mem } := by
        unfold link
        rw [hres]
        dsimp only
        rw [read_flat _ hw, writePointers_flat _ hw]
        rfl
      refine ⟨wptr.toNat, pointers, hmem, hlinked, ?_⟩
      rw [hlinked]
      have hother : ∀ a, a ≠ wptr.toNat → mem.pointers a = b.oram.pointers a :=
        fun a ha => Function.update_of_ne ha _ _
      have hself : mem.pointers wptr.toNat = pointers := Function.update_self _ _ _
      have hselfl : extractLeftPtr pointers = select (!direction) left addr :=
        extractLeftPtr_setPtrs _ hleftlt hrightlt
      have hselfr : extractRightPtr pointers = select direction right addr :=
        extractRightPtr_setPtrs _ hleftlt hrightlt
      have hnewne : addr.toNat ≠ wptr.toNat := fun h => hnew (h ▸ hmem)
      have hstored : (t.insertAt (isAbove b.oram key) addr.toNat).Stored (leftLink mem)
          (rightLink mem) := by
        refine ht.stored.insertAt ht.nodup hne hzero hnew ?_ ?_ ?_
        · simp only [leftLink, rightLink, hother _ hnewne, hleaf]
          exact ⟨by decide, by decide⟩
        · rw [← hrec]
          simp only [leftLink, rightLink, hself, hselfl, hselfr]
          cases direction with
          | false => exact ⟨rfl, rfl⟩
          | true => exact ⟨rfl, rfl⟩
        · intro a _ ha
          rw [← hrec] at ha
          simp only [leftLink, rightLink, hother a ha, and_self]
      refine ⟨?_, hstored, fun a ha => ?_, ?_⟩
      · rw [LinkedTree.root_insertAt hne]
        exact ht.root
      · rcases LinkedTree.mem_insertAt.1 ha with rfl | ha
        · exact hlt
        · exact ht.inside a ha
      · rw [(LinkedTree.perm_insertAt t).nodup_iff]
        exact List.nodup_cons.2 ⟨hnew, ht.nodup⟩

/-- The tree with the new node as a leaf. -/
def treeInsert (b : BST oramSize) (t : LinkedTree) (key : Value) : LinkedTree :=
  t.insertAt (goRight b.oram key) b.slot

/-- The first node of a BST. -/
theorem insert_empty {b : BST oramSize} (hcount : b.numItems = 0) (hlt : 1 < oramSize)
    {node : Node} (hptrs : node.pointers = 0) : ∃ b' : BST oramSize, b.insert node = some b' ∧
      b'.Holds (.node 1 .nil .nil) ∧ b'.oram.holds 1 = node ∧ b'.oram.holds 0 = b.oram.holds 0 ∧
      b'.emptyLocations = b.emptyLocations := by
  have hins : b.insert node = some
      { b with oram := b.oram.set (flat oramSize) 1 node, root := 1, numItems := 1 } := by
    rw [insert, if_pos hcount, if_pos hlt]
  refine ⟨_, hins, ⟨rfl, fun _ => ⟨rfl, ?_, ?_, ?_⟩⟩, ?_, ?_, rfl⟩
  · dsimp only
    rw [Nodes.set_whole]
    simp only [LinkedTree.Stored, leftLink, rightLink, Function.update_self, hptrs]
    exact ⟨by decide, by decide, by decide, trivial, trivial⟩
  · intro a ha
    rw [List.mem_singleton.1 ha]
    exact hlt
  · exact List.nodup_singleton 1
  · dsimp only
    rw [Nodes.set_whole]
    simp only [Nodes.holds, Function.update_self]
  · dsimp only
    rw [Nodes.set_whole]
    simp only [Nodes.holds, Function.update_of_ne Nat.zero_ne_one]

/-- A node written to the slot, and the recursion over the tree. -/
theorem insert_link {b : BST oramSize} (hcount : b.numItems ≠ 0) (hslot : b.slot < oramSize)
    (hlink : b.slot < 2 ^ 32) (node : Node) : ∃ (addr : Value) (b₁ : BST oramSize),
    b.insert node = some (b₁.link b.numItems addr node.key) ∧ addr.toNat = b.slot ∧
      b₁.oram = ⟨Function.update b.oram.key b.slot node.key,
        Function.update b.oram.pointers b.slot node.pointers,
        Function.update b.oram.value b.slot node.value⟩ ∧
      b₁.root = b.root ∧ b₁.numItems = b.numItems + 1 ∧ b₁.emptyLocations = b.emptyLocations.tail := by
  unfold insert
  rw [if_neg hcount]
  unfold slot at hslot hlink ⊢
  rw [if_neg hcount] at hslot hlink ⊢
  cases hempty : b.emptyLocations with
  | cons addr rest =>
      rw [hempty] at hslot
      refine ⟨addr, _, rfl, rfl, ?_, rfl, rfl, rfl⟩
      exact Nodes.write_of_reaches (Shape.whole_reaches hslot) b.oram node
  | nil =>
      rw [hempty] at hslot hlink
      dsimp only at hslot hlink ⊢
      rw [if_pos hslot]
      refine ⟨_, _, rfl, ?_, ?_, rfl, rfl, rfl⟩
      · rw [BitVec.toNat_ofNat]
        exact Nat.mod_eq_of_lt (lt_trans hlink (by decide))
      · exact Nodes.set_whole b.oram _ node

/-- **Insertion.**  The new node becomes the leaf to which the comparisons lead; keys and values stay. -/
theorem insert_leaf {b : BST oramSize} {t : LinkedTree} (ht : b.Holds t) (hslot : b.SlotFree t) {node : Node}
    (hptrs : node.pointers = 0) : ∃ b' : BST oramSize,
      b.insert node = some b' ∧ b'.Holds (t.insertAt (isAbove b.oram node.key) b.slot) ∧
      (∀ a ∈ t.toList, b'.oram.key a = b.oram.key a ∧ b'.oram.value a = b.oram.value a) ∧
      b'.oram.key b.slot = node.key ∧ b'.oram.value b.slot = node.value ∧
      b'.oram.holds 0 = b.oram.holds 0 ∧
      b'.emptyLocations = if b.numItems = 0 then b.emptyLocations else b.emptyLocations.tail := by
  by_cases hcount : b.numItems = 0
  · have hnil : t = .nil := by
      cases t with
      | nil => rfl
      | node a l r =>
          rw [ht.count, LinkedTree.size_node] at hcount
          omega
    have hone : b.slot = 1 := by rw [slot, if_pos hcount]
    obtain ⟨b', hins, hholds, hnode, hzero, hempty⟩ := insert_empty hcount (hone ▸ hslot.lt) hptrs
    refine ⟨b', hins, ?_, ?_, ?_, ?_, hzero, ?_⟩
    · rw [hnil, hone]
      exact hholds
    · rw [hnil]
      simp
    · rw [hone]
      exact congrArg Node.key hnode
    · rw [hone]
      exact congrArg Node.value hnode
    · rw [if_pos hcount, hempty]
  · have hne : t ≠ .nil := by
      rintro rfl
      exact hcount ht.count
    have htree := ht.tree hne
    obtain ⟨addr, b₁, hins, haddr, horam, hroot, hitems, hempty⟩ :=
      insert_link hcount hslot.lt hslot.link node
    have hstay : ∀ a ∈ t.toList, a ≠ b.slot := fun a ha has => hslot.fresh (has ▸ ha)
    have hkey₁ : ∀ a ∈ t.toList, b₁.oram.key a = b.oram.key a := by
      intro a ha
      rw [horam]
      exact Function.update_of_ne (hstay a ha) _ _
    have htree₁ : b₁.HasTree t := by
      have hwrite := htree.write hslot.fresh node
      rw [← horam, ← hroot] at hwrite
      exact hwrite
    obtain ⟨wptr, pointers, hw, hlinked, hnew⟩ := @link_spec _ _ _ htree₁ hne node.key _
      (haddr ▸ hslot.ne_zero) (haddr ▸ hslot.fresh) (haddr ▸ hslot.lt) (haddr ▸ hslot.link)
      (by rw [horam, haddr]; exact (Function.update_self _ _ _).trans hptrs) _ (le_of_eq ht.count.symm)
    have hsame : t.insertAt (isAbove b₁.oram node.key) addr.toNat =
        t.insertAt (isAbove b.oram node.key) b.slot := by
      rw [haddr]
      exact LinkedTree.insertAt_congr fun a ha => by rw [isAbove, isAbove, hkey₁ a ha]
    rw [hsame] at hnew
    refine ⟨_, hins, ⟨?_, fun _ => ?_⟩, ?_, ?_, ?_, ?_, ?_⟩
    · rw [hlinked, LinkedTree.size_insertAt, ← ht.count]
      exact hitems
    · have hroot' : (b₁.link b.numItems addr node.key).root = b₁.root := by rw [hlinked]
      unfold HasTree
      rw [hroot']
      exact hnew
    · intro a ha
      rw [hlinked, horam]
      exact ⟨Function.update_of_ne (hstay a ha) _ _, Function.update_of_ne (hstay a ha) _ _⟩
    · rw [hlinked, horam]
      exact Function.update_self _ _ _
    · rw [hlinked, horam]
      exact Function.update_self _ _ _
    · have hw0 : (0 : Nat) ≠ wptr := (htree.stored.ne_zero wptr hw).symm
      rw [hlinked, horam]
      simp only [Nodes.holds, Function.update_of_ne hw0, Function.update_of_ne hslot.ne_zero.symm]
    · rw [hlinked, if_neg hcount]
      exact hempty

/-- Keys below `2^63` are inserted in the order of the numbers. -/
theorem insert_spec {b : BST oramSize} {t : LinkedTree} (ht : b.Holds t)
    (hkeys : ∀ a ∈ t.toList, keyOf b.oram a < 2 ^ 63) (hslot : b.SlotFree t) {node : Node}
    (hptrs : node.pointers = 0) (hkey : node.key.toNat < 2 ^ 63) : ∃ b' : BST oramSize,
      b.insert node = some b' ∧ b'.Holds (b.treeInsert t node.key) ∧
      (∀ a ∈ t.toList, b'.oram.key a = b.oram.key a ∧ b'.oram.value a = b.oram.value a) ∧
      b'.oram.key b.slot = node.key ∧ b'.oram.value b.slot = node.value ∧
      b'.oram.holds 0 = b.oram.holds 0 ∧
      b'.emptyLocations = if b.numItems = 0 then b.emptyLocations else b.emptyLocations.tail := by
  have hsame : t.insertAt (isAbove b.oram node.key) b.slot = b.treeInsert t node.key :=
    LinkedTree.insertAt_congr fun a ha => isAbove_of_lt hkey (hkeys a ha)
  rw [← hsame]
  exact insert_leaf ht hslot hptrs

/-- The pairs after an insertion. -/
theorem pairs_insertAt {b b' : BST oramSize} {right : Nat → Bool} {t : LinkedTree} {node : Node}
    (hsame : ∀ a ∈ t.toList, b'.oram.key a = b.oram.key a ∧ b'.oram.value a = b.oram.value a)
    (hkey : b'.oram.key b.slot = node.key) (hvalue : b'.oram.value b.slot = node.value) :
    pairs b'.oram (t.insertAt right b.slot) = (node.key, node.value) ::ₘ pairs b.oram t := by
  unfold pairs
  rw [Multiset.coe_eq_coe.2 ((LinkedTree.perm_insertAt t).map (pairOf b'.oram)), List.map_cons,
    ← Multiset.cons_coe]
  congr 1
  · rw [pairOf, hkey, hvalue]
  · congr 1
    refine List.map_congr_left fun a ha => ?_
    rw [pairOf, pairOf, (hsame a ha).1, (hsame a ha).2]

/-- The new tree is a search tree, strict or not. -/
theorem ordered_treeInsert {R : Nat → Nat → Prop} {b b' : BST oramSize} {t : LinkedTree}
    {key : Value} (hR : ∀ x y, x < y → R x y) (h : t.Ordered R (keyOf b.oram))
    (hsame : ∀ a ∈ t.toList, b'.oram.key a = b.oram.key a) (hkey : b'.oram.key b.slot = key) :
    (b.treeInsert t key).Ordered R (keyOf b'.oram) := by
  have hsame' : ∀ a ∈ t.toList, keyOf b'.oram a = keyOf b.oram a := fun a ha => by
    rw [keyOf, keyOf, hsame a ha]
  have hkey' : keyOf b'.oram b.slot = key.toNat := by rw [keyOf, hkey]
  have hnew := @LinkedTree.Ordered.insertAt b.slot _ _ _ _ _ (h.congr hsame') hR
  have hpath : t.insertAt (fun a => decide (keyOf b'.oram a < keyOf b'.oram b.slot)) b.slot =
      b.treeInsert t key :=
    LinkedTree.insertAt_congr fun a ha => by rw [goRight, hsame' a ha, hkey']
  rwa [hpath] at hnew

/-! ## Lookup -/

section Dummy

variable {mem : Nodes} (hn : 0 < oramSize) (hzero : mem.holds 0 = 0) {key : Value} (hkey : key ≠ 0)

include hn hzero in
theorem read_dummy : mem.read (flat oramSize) ((flat oramSize).index 0) = 0 :=
  (@read_flat _ mem 0 hn).trans hzero

include hkey in
/-- No other key is that of the dummy node. -/
theorem compare_dummy : (signedCompare (key - 0)).2.1 = false := by
  rw [sub_zero]
  exact decide_eq_false hkey

end Dummy

/-- Both links of the dummy node lead to itself. -/
theorem next_dummy (f : Bool) : selectBits 32 f (extractLeftPtr 0) (extractRightPtr 0) = 0 := by
  cases f <;> decide

/-- Beyond the leaves the recursion stays at the dummy node 0. -/
theorem lookupRec_nil {mem : Nodes} (hn : 0 < oramSize) (hzero : mem.holds 0 = 0) {key : Value}
    (hkey : key ≠ 0) (TTL : Nat) (isDummy : Bool) (ret_node : Node) :
    lookupRec oramSize mem key TTL 0 isDummy ret_node = (isDummy, ret_node) := by
  induction TTL generalizing isDummy with
  | zero => rfl
  | succ TTL ih =>
      unfold lookupRec
      dsimp only
      rw [read_dummy hn hzero, Node.zero_key, Node.zero_pointers, compare_dummy hkey, next_dummy, Bool.or_false]
      exact ih isDummy

/-- What a lookup below the root of `t` says: whether the key is there, and the last match. -/
structure LookedUp (mem : Nodes) (key : Value) (t : LinkedTree) (ret_node : Node) (found : Bool) (node : Node) :
    Prop where
  found_iff : found = true ↔ ∃ a ∈ t.toList, mem.key a = key
  keep : found = false → node = ret_node
  hit : found = true → ∃ a ∈ t.toList, mem.key a = key ∧ (node.key, node.value) = pairOf mem a

/-- The key is only below the child that the recursion went into. -/
theorem LookedUp.above {mem : Nodes} {key : Value} {s t : LinkedTree} {ret_node node : Node} {found : Bool}
    (h : LookedUp mem key s ret_node found node) (hsub : ∀ a ∈ s.toList, a ∈ t.toList)
    (honly : ∀ a ∈ t.toList, mem.key a = key → a ∈ s.toList) : LookedUp mem key t ret_node found node := by
  refine ⟨h.found_iff.trans ⟨?_, ?_⟩, h.keep, fun hfound => ?_⟩
  · rintro ⟨a, ha, hak⟩
    exact ⟨a, hsub a ha, hak⟩
  · rintro ⟨a, ha, hak⟩
    exact ⟨a, honly a ha hak, hak⟩
  · obtain ⟨a, ha, hak, hpair⟩ := h.hit hfound
    exact ⟨a, hsub a ha, hak, hpair⟩

/-- The recursion over a tree finds the key iff it is there, and returns the last match. -/
theorem lookupRec_spec {mem : Nodes} (hn : 0 < oramSize) (hzero : mem.holds 0 = 0) {key : Value}
    (hkey0 : key ≠ 0) (hkey : key.toNat < 2 ^ 63) {t : LinkedTree} :
    ∀ {TTL : Nat} {ptr : Value} {isDummy : Bool} {ret_node : Node}, ptr.toNat = t.root →
      t.Stored (leftLink mem) (rightLink mem) →
      (∀ a ∈ t.toList, a < oramSize ∧ keyOf mem a < 2 ^ 63) →
      t.Ordered (· < ·) (keyOf mem) → t.size ≤ TTL →
      ∃ found node, lookupRec oramSize mem key TTL ptr isDummy ret_node = (isDummy || found, node) ∧
        LookedUp mem key t ret_node found node := by
  induction t with
  | nil =>
      intro TTL ptr isDummy ret_node hroot _ _ _ _
      obtain rfl : ptr = 0 := BitVec.eq_of_toNat_eq hroot
      refine ⟨false, ret_node, ?_, by simp, fun _ => rfl, by simp⟩
      rw [lookupRec_nil hn hzero hkey0, Bool.or_false]
  | node a l r ihl ihr =>
      intro TTL ptr isDummy ret_node hroot hs hin hord hTTL
      obtain ⟨_, hleft, hright, hl, hr⟩ := hs
      obtain ⟨hle, hgt, hol, hor⟩ := hord
      rw [LinkedTree.size_node] at hTTL
      cases TTL with
      | zero => omega
      | succ TTL =>
          obtain rfl : ptr.toNat = a := hroot
          have hTTLl : l.size ≤ TTL := by omega
          have hTTLr : r.size ≤ TTL := by omega
          have hself := hin ptr.toNat (by simp)
          have hinl := fun x hx => hin x (LinkedTree.mem_node.2 (.inl hx))
          have hinr := fun x hx => hin x (LinkedTree.mem_node.2 (.inr (.inr hx)))
          have hcmp := compare_node hkey hself.2
          have hkeyself : (mem.holds ptr.toNat).key = mem.key ptr.toNat := rfl
          unfold lookupRec
          dsimp only
          rw [read_flat mem hself.1, hkeyself, hcmp, selectBits_extract]
          dsimp only
          by_cases heq : key.toNat = keyOf mem ptr.toNat
          · -- found here; the path goes on to the left
            have hkeyeq : mem.key ptr.toNat = key := (BitVec.eq_of_toNat_eq heq).symm
            have hdir : goRight mem key ptr.toNat = false := decide_eq_false (by omega)
            rw [decide_eq_true heq, hdir, Bool.or_true]
            obtain ⟨found, node, hrun, hbelow⟩ := @ihl TTL
              (select false (extractLeftPtr (mem.holds ptr.toNat).pointers)
                (extractRightPtr (mem.holds ptr.toNat).pointers)) true
              { ret_node with key := mem.key ptr.toNat, value := (mem.holds ptr.toNat).value } hleft hl
              hinl hol hTTLl
            refine ⟨true, node, ?_, ?_, by simp, fun _ => ?_⟩
            · rw [Bool.or_true]
              exact hrun
            · exact iff_of_true rfl ⟨ptr.toNat, by simp, hkeyeq⟩
            · cases found with
              | false =>
                  rw [hbelow.keep rfl]
                  exact ⟨ptr.toNat, by simp, hkeyeq, rfl⟩
              | true =>
                  obtain ⟨a, ha, hak, hpair⟩ := hbelow.hit rfl
                  exact ⟨a, LinkedTree.mem_node.2 (.inl ha), hak, hpair⟩
          · have hkeyne : mem.key ptr.toNat ≠ key := fun h => heq (congrArg BitVec.toNat h).symm
            rw [decide_eq_false heq, Bool.or_false]
            by_cases hlt : keyOf mem ptr.toNat < key.toNat
            · have hdir : goRight mem key ptr.toNat = true := decide_eq_true hlt
              rw [hdir]
              obtain ⟨found, node, hrun, hbelow⟩ := @ihr TTL
                (select true (extractLeftPtr (mem.holds ptr.toNat).pointers)
                  (extractRightPtr (mem.holds ptr.toNat).pointers)) isDummy ret_node hright hr hinr hor hTTLr
              refine ⟨found, node, hrun, hbelow.above (fun x hx => LinkedTree.mem_node.2 (.inr (.inr hx))) ?_⟩
              intro x hx hxk
              have hxeq : keyOf mem x = key.toNat := congrArg BitVec.toNat hxk
              rcases LinkedTree.mem_node.1 hx with hx | rfl | hx
              · have hxle := hle x hx
                omega
              · exact absurd hxk hkeyne
              · exact hx
            · have hdir : goRight mem key ptr.toNat = false := decide_eq_false hlt
              rw [hdir]
              obtain ⟨found, node, hrun, hbelow⟩ := @ihl TTL
                (select false (extractLeftPtr (mem.holds ptr.toNat).pointers)
                  (extractRightPtr (mem.holds ptr.toNat).pointers)) isDummy ret_node hleft hl hinl hol hTTLl
              refine ⟨found, node, hrun, hbelow.above (fun x hx => LinkedTree.mem_node.2 (.inl hx)) ?_⟩
              intro x hx hxk
              have hxeq : keyOf mem x = key.toNat := congrArg BitVec.toNat hxk
              rcases LinkedTree.mem_node.1 hx with hx | rfl | hx
              · exact hx
              · exact absurd hxk hkeyne
              · have hxgt := hgt x hx
                omega

/-- **Insertion and lookup are correct on every accepted tree.** -/
theorem insert_lookup_correct {b : BST oramSize} {t : LinkedTree} (ht : b.Holds t)
    (haccepted : t ≠ .nil → b.Accepted) (hkeys : KeysOk b.oram t) (hzero : b.oram.holds 0 = 0) :
    (∀ node : Node, node.pointers = 0 → node.key.toNat < 2 ^ 63 → b.SlotFree t →
      ∃ b' t', b.insert node = some b' ∧ b'.Holds t' ∧ b'.Accepted ∧
        pairs b'.oram t' = (node.key, node.value) ::ₘ pairs b.oram t) ∧
    (∀ (key : Value) (ret_node : Node), key ≠ 0 → key.toNat < 2 ^ 63 →
      ((b.lookup key ret_node).1 = true ↔ ∃ p ∈ pairs b.oram t, p.1 = key) ∧
      ((b.lookup key ret_node).1 = true → (b.lookup key ret_node).2.key = key ∧
        ((b.lookup key ret_node).2.key, (b.lookup key ret_node).2.value) ∈ pairs b.oram t)) := by
  have hlt : ∀ a ∈ t.toList, keyOf b.oram a < 2 ^ 63 := fun a ha => (hkeys a ha).2
  have hord : t.Ordered (· < ·) (keyOf b.oram) := by
    by_cases hne : t = .nil
    · rw [hne]
      exact trivial
    · exact ((ht.tree hne).accepted_iff hlt).1 (haccepted hne)
  refine ⟨fun node hptrs hkey hslot => ?_, fun key ret_node hkey0 hkey => ?_⟩
  · obtain ⟨b', hins, hholds, hsame, hnewkey, hnewvalue, _, _⟩ := insert_spec ht hlt hslot hptrs hkey
    refine ⟨b', _, hins, hholds, ?_, pairs_insertAt hsame hnewkey hnewvalue⟩
    rw [(hholds.tree (LinkedTree.insertAt_ne_nil t)).accepted_iff]
    · exact ordered_treeInsert (fun _ _ h => h) hord (fun a ha => (hsame a ha).1) hnewkey
    · intro a ha
      rcases LinkedTree.mem_insertAt.1 ha with rfl | ha
      · rw [keyOf, hnewkey]
        exact hkey
      · rw [keyOf, (hsame a ha).1]
        exact hlt a ha
  · by_cases hne : t = .nil
    · have hitems : b.numItems = 0 := by rw [ht.count, hne, LinkedTree.size_nil]
      rw [lookup, hitems, lookupRec, hne]
      simp [pairs]
    · have htree := ht.tree hne
      have hn : 0 < oramSize := lt_of_le_of_lt (Nat.zero_le _) (htree.inside _ (LinkedTree.root_mem hne))
      have hspec := @lookupRec_spec _ _ hn hzero key hkey0 hkey t b.numItems b.root false ret_node
        htree.root htree.stored (fun a ha => ⟨htree.inside a ha, hlt a ha⟩) hord (le_of_eq ht.count.symm)
      obtain ⟨found, node, hrun, hiff, _, hfound⟩ := hspec
      rw [lookup, hrun, Bool.false_or]
      dsimp only
      refine ⟨hiff.trans ?_, fun h => ?_⟩
      · constructor
        · rintro ⟨a, ha, hak⟩
          exact ⟨_, mem_pairs.2 ⟨a, ha, rfl⟩, hak⟩
        · rintro ⟨p, hp, hpk⟩
          obtain ⟨a, ha, rfl⟩ := mem_pairs.1 hp
          exact ⟨a, ha, hpk⟩
      · obtain ⟨a, ha, hak, hpair⟩ := hfound h
        rw [hpair]
        exact ⟨(congrArg Prod.fst hpair).trans hak, mem_pairs.2 ⟨a, ha, rfl⟩⟩

/-- The key 10 at the root and 13 on its right. -/
def twoNodes : BST 8 where
  oram := {
    key := fun a => if a = 1 then 10 else if a = 3 then 13 else 0
    pointers := fun a => if a = 1 then 3 else 0
    value := fun a => if a = 1 then 100 else if a = 3 then 130 else 0 }
  root := 1
  numItems := 2
  emptyLocations := []

theorem insert_lookup_correct_two :
    (∃ b' t', twoNodes.insert ⟨12, 0, 120⟩ = some b' ∧ b'.Holds t' ∧ b'.Accepted ∧
      pairs b'.oram t' = {(12, 120), (10, 100), (13, 130)}) ∧
    (twoNodes.lookup 13 0).1 = true ∧ (twoNodes.lookup 12 0).1 = false := by
  have hholds : twoNodes.Holds (.node 1 .nil (.node 3 .nil .nil)) :=
    ⟨rfl, fun _ => ⟨rfl, ⟨by decide, rfl, rfl, trivial, by decide, rfl, rfl, trivial, trivial⟩,
      by decide, by decide⟩⟩
  have hkeys : KeysOk twoNodes.oram (.node 1 .nil (.node 3 .nil .nil)) := by
    unfold KeysOk
    decide
  have h := insert_lookup_correct hholds (fun _ => ⟨3, 2, rfl⟩) hkeys rfl
  refine ⟨?_, ?_, ?_⟩
  · obtain ⟨b', t', hins, htree, haccepted, hpairs⟩ := h.1 ⟨12, 0, 120⟩ rfl (by decide)
      ⟨by decide, by decide, by decide, by decide⟩
    exact ⟨b', t', hins, htree, haccepted, hpairs⟩
  · exact (h.2 13 0 (by decide) (by decide)).1.2 ⟨(13, 130), by decide, rfl⟩
  · rw [← Bool.not_eq_true, (h.2 12 0 (by decide) (by decide)).1]
    rintro ⟨p, hp, hp1⟩
    simp only [pairs, LinkedTree.toList, List.nil_append, List.map_cons, List.map_nil,
      Multiset.mem_coe, List.mem_cons, List.not_mem_nil, or_false] at hp
    rcases hp with rfl | rfl
    · exact absurd hp1 (by decide)
    · exact absurd hp1 (by decide)

end BST

end Prac
