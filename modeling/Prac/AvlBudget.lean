import Mathlib.Analysis.SpecialFunctions.Log.Base
import Prac.AvlSearch

/-!
# The step budget of an AVL

* `AVL.AVL_TTL_eq_ceil` — `AVL_TTL` is `ceil(1.44 * log2(n))` over the reals.
* `AVL.insertNext`, `AVL.delNext` — the arguments with which a level of `insert` or `del` calls the next one;
  `AVL.insertRec_iterate`, `AVL.delRec_iterate` — the recursions level by level.
* `AVL.LinkedAt.ends` — a descent along the links is past the leaves after as many levels as the tree is high.
* `AVL.TTL_suffices` — the recursions get to the end of their path.
-/

namespace Prac

namespace AVL

variable {oramSize : Nat}

/-- The formula of `AVL_TTL`. -/
theorem AVL_TTL_eq_ceil {n : Nat} (hn : 1 < n) : AVL_TTL n = ⌈(1.44 : ℝ) * Real.logb 2 n⌉₊ := by
  have hpos : (0 : ℝ) < (n : ℝ) ^ 36 := by positivity
  unfold AVL_TTL
  rw [if_neg (by omega), if_neg (by omega)]
  refine eq_of_forall_ge_iff fun k => ?_
  have hpow : n ^ 36 ≤ (2 ^ 25) ^ k ↔ (n : ℝ) ^ 36 ≤ (2 : ℝ) ^ ((25 * k : Nat) : ℝ) := by
    rw [Real.rpow_natCast, pow_mul]
    exact_mod_cast Iff.rfl
  rw [Nat.clog_le_iff_le_pow (by decide), Nat.ceil_le, hpow,
    ← Real.logb_le_iff_le_rpow (by norm_num) hpos, Real.logb_pow]
  push_cast
  constructor
  · intro h
    linarith
  · intro h
    linarith

/-! ## The way down -/

/-- The links from a pointer hold the tree, whatever the keys and the balance bits. -/
structure LinkedAt (bound : Nat) (mem : Nodes) (ptr : Value) (t : LinkedTree) : Prop where
  root : ptr.toNat = t.root
  stored : t.Stored (linkOf mem false) (linkOf mem true)
  inside : ∀ a ∈ t.toList, a < bound

theorem LinkedAt.lt {bound : Nat} {mem : Nodes} {ptr : Value} {t : LinkedTree} (h : LinkedAt bound mem ptr t)
    (hbound : 0 < bound) : ptr.toNat < bound :=
  h.root ▸ root_inside hbound h.inside

theorem LinkedAt.child {bound : Nat} {mem : Nodes} (hzero : mem.holds 0 = 0) {ptr : Value} {t : LinkedTree}
    (h : LinkedAt bound mem ptr t) (d : Bool) :
    LinkedAt bound mem (link d (mem.pointers ptr.toNat)) (t.child d) := by
  by_cases hne : t = .nil
  · have hroot : ptr.toNat = 0 := by rw [h.root, hne, LinkedTree.root_nil]
    rw [hroot, show mem.pointers 0 = 0 from congrArg Node.pointers hzero, link_zero, hne]
    exact ⟨rfl, trivial, by simp [LinkedTree.child]⟩
  · have hbranch := LinkedTree.branch_child d hne
    rw [← h.root] at hbranch
    have hstored := h.stored
    have hinside := h.inside
    rw [← hbranch] at hinside hstored
    obtain ⟨_, hlink, _, hchild, _⟩ := LinkedTree.stored_branch.1 hstored
    exact ⟨hlink, hchild, fun a ha => hinside a (LinkedTree.mem_branch.2 (.inr (.inl ha)))⟩

theorem height_child (d : Bool) (t : LinkedTree) : (t.child d).height ≤ t.height - 1 := by
  cases t with
  | nil => exact Nat.zero_le _
  | node a l r =>
      cases d with
      | false => exact Nat.le_sub_one_of_lt (Nat.lt_succ_of_le (Nat.le_max_left _ _))
      | true => exact Nat.le_sub_one_of_lt (Nat.lt_succ_of_le (Nat.le_max_right _ _))

/-- A descent along the links, with any other state, ends at 0 in as many steps as the tree is high. -/
theorem LinkedAt.ends {σ : Type} {bound : Nat} {mem : Nodes} (hzero : mem.holds 0 = 0)
    {next : Value × σ → Value × σ}
    (hnext : ∀ s : Value × σ, s.1.toNat < bound → ∃ d, (next s).1 = link d (mem.pointers s.1.toNat))
    (hbound : 0 < bound) {k : Nat} : ∀ {t : LinkedTree} {s : Value × σ}, LinkedAt bound mem s.1 t →
      t.height ≤ k → (next^[k] s).1 = 0 := by
  induction k with
  | zero =>
      intro t s h hk
      have hnil : t = .nil := LinkedTree.height_eq_zero.1 (Nat.le_zero.1 hk)
      exact BitVec.eq_of_toNat_eq (h.root.trans (hnil ▸ rfl))
  | succ k ih =>
      intro t s h hk
      obtain ⟨d, hd⟩ := hnext s (h.lt hbound)
      have hchild := h.child hzero d
      rw [← hd] at hchild
      have hheight := height_child d t
      rw [Function.iterate_succ_apply]
      exact ih hchild (by omega)

section Levels

variable (OPTIMIZED : Bool) (A : Shape oramSize) (width : Nat) (mem : Nodes)

/-- `next_ptr` and `isDummy` of the call of the next level of `insert`. -/
def insertNext (insert_key : Value) (s : Value × Bool) : Value × Bool :=
  let cnode := readNode OPTIMIZED A mem ⟨s.1, width⟩ s.1
  let gt := (compareKeys cnode.key insert_key).2
  let left := getAVLLeftPtr cnode.pointers
  let right := getAVLRightPtr cnode.pointers
  let next_ptr := selectBits 31 gt left right
  let F_z := decide (next_ptr = 0)
  (next_ptr, s.2 ^^ (!s.2 && F_z))

/-- The way back of a level of `insert`. -/
def insertUp (ins_addr insert_key : Value) (s : Value × Bool) (below : InsertResult × Nodes × InsertReturn) :
    InsertResult × Nodes × InsertReturn :=
  let cnode := readNode OPTIMIZED A mem ⟨s.1, width⟩ s.1
  let cmp := compareKeys cnode.key insert_key
  let F_z := decide ((insertNext OPTIMIZED A width mem insert_key s).1 = 0)
  let back := insertBack ins_addr s.1 cnode.pointers cmp.1 cmp.2 (!s.2 && F_z) below.1 below.2.2
  (back.2.1, updatePointers OPTIMIZED A below.2.1 ⟨s.1, width⟩ s.1 back.1 cnode.pointers, back.2.2)

/-- A level of `insert` calls the next one with `insertNext`. -/
theorem insertRec_next (ins_addr insert_key : Value) (TTL : Nat) (s : Value × Bool) (ret : InsertReturn) :
    insertRec OPTIMIZED A width ins_addr insert_key (TTL + 1) s.1 s.2 (mem, ret) =
      insertUp OPTIMIZED A width mem ins_addr insert_key s
        (insertRec OPTIMIZED A width ins_addr insert_key TTL (insertNext OPTIMIZED A width mem insert_key s).1
          (insertNext OPTIMIZED A width mem insert_key s).2 (mem, ret)) := rfl

/-- The levels of `insert` down to the call that has the budget `TTL`, and the way back from them. -/
theorem insertRec_iterate (ins_addr insert_key : Value) (TTL k : Nat) (s : Value × Bool) (ret : InsertReturn) :
    insertRec OPTIMIZED A width ins_addr insert_key (TTL + k) s.1 s.2 (mem, ret) =
      (List.range k).foldr
        (fun j => insertUp OPTIMIZED A width mem ins_addr insert_key
          ((insertNext OPTIMIZED A width mem insert_key)^[j] s))
        (insertRec OPTIMIZED A width ins_addr insert_key TTL
          ((insertNext OPTIMIZED A width mem insert_key)^[k] s).1
          ((insertNext OPTIMIZED A width mem insert_key)^[k] s).2 (mem, ret)) := by
  induction k generalizing TTL with
  | zero => rfl
  | succ k ih =>
      rw [← Nat.add_assoc, Nat.add_right_comm, ih, insertRec_next, List.range_succ, List.foldr_append,
        List.foldr_cons, List.foldr_nil, Function.iterate_succ_apply']

/-- The flags of a level of `del`. -/
def delFlagsAt (del_key : Value) (s : Value × Bool × Bool) : DelFlags :=
  let node := readNode OPTIMIZED A mem ⟨s.1, width⟩ s.1
  let left := getAVLLeftPtr node.pointers
  let right := getAVLRightPtr node.pointers
  let cmp := signedCompare (del_key - node.key)
  delFlags (decide (left = 0)) (decide (right = 0)) cmp.2.1 cmp.2.2 s.2.1 s.2.2

/-- `next_ptr`, `found_prime` and `find_successor_prime` of the call of the next level of `del`. -/
def delNext (del_key : Value) (s : Value × Bool × Bool) : Value × Bool × Bool :=
  let pointers := (readNode OPTIMIZED A mem ⟨s.1, width⟩ s.1).pointers
  let F := delFlagsAt OPTIMIZED A width mem del_key s
  (selectBits 31 F.c_prime (getAVLLeftPtr pointers) (getAVLRightPtr pointers), F.found_prime,
    F.find_successor_prime)

/-- The way back of a level of `del`. -/
def delUp (del_key : Value) (s : Value × Bool × Bool) (below : (Bool × Bool) × Nodes × DelReturn) :
    (Bool × Bool) × Nodes × DelReturn :=
  let pointers := (readNode OPTIMIZED A mem ⟨s.1, width⟩ s.1).pointers
  let F := delFlagsAt OPTIMIZED A width mem del_key s
  if below.1.1 then
    delBack OPTIMIZED A width below.2.1 s.1 pointers F.c_prime F.F_rs below.1.2 below.2.2
  else ((false, false), below.2)

/-- A level of `del` calls the next one with `delNext`. -/
theorem delRec_next (del_key : Value) (TTL : Nat) (s : Value × Bool × Bool) (ret : DelReturn) :
    delRec OPTIMIZED A width del_key (TTL + 1) s.1 s.2.1 s.2.2 (mem, ret) =
      delUp OPTIMIZED A width mem del_key s
        (delRec OPTIMIZED A width del_key TTL (delNext OPTIMIZED A width mem del_key s).1
          (delNext OPTIMIZED A width mem del_key s).2.1 (delNext OPTIMIZED A width mem del_key s).2.2
          (mem, delDown s.1 (delFlagsAt OPTIMIZED A width mem del_key s) ret)) := by
  rw [delRec]
  unfold delUp
  dsimp only
  split
  case h_1 fl mem' ret' hfalse =>
    have hbelow : delRec OPTIMIZED A width del_key TTL (delNext OPTIMIZED A width mem del_key s).1
          (delNext OPTIMIZED A width mem del_key s).2.1 (delNext OPTIMIZED A width mem del_key s).2.2
          (mem, delDown s.1 (delFlagsAt OPTIMIZED A width mem del_key s) ret) = _ := hfalse
    rw [hbelow]
    rfl
  case h_2 bal_upd mem' ret' htrue =>
    have hbelow : delRec OPTIMIZED A width del_key TTL (delNext OPTIMIZED A width mem del_key s).1
          (delNext OPTIMIZED A width mem del_key s).2.1 (delNext OPTIMIZED A width mem del_key s).2.2
          (mem, delDown s.1 (delFlagsAt OPTIMIZED A width mem del_key s) ret) = _ := htrue
    rw [hbelow]
    rfl

/-- The levels of `del` down to the call that has the budget `TTL`, and the way back from them. -/
theorem delRec_iterate (del_key : Value) (TTL k : Nat) (s : Value × Bool × Bool) (ret : DelReturn) :
    ∃ ret', delRec OPTIMIZED A width del_key (TTL + k) s.1 s.2.1 s.2.2 (mem, ret) =
      (List.range k).foldr
        (fun j => delUp OPTIMIZED A width mem del_key ((delNext OPTIMIZED A width mem del_key)^[j] s))
        (delRec OPTIMIZED A width del_key TTL
          ((delNext OPTIMIZED A width mem del_key)^[k] s).1
          ((delNext OPTIMIZED A width mem del_key)^[k] s).2.1
          ((delNext OPTIMIZED A width mem del_key)^[k] s).2.2 (mem, ret')) := by
  induction k generalizing TTL with
  | zero => exact ⟨ret, rfl⟩
  | succ k ih =>
      obtain ⟨ret', heq⟩ := ih (TTL + 1)
      obtain ⟨u, hu⟩ : ∃ u, u = (delNext OPTIMIZED A width mem del_key)^[k] s := ⟨_, rfl⟩
      refine ⟨delDown u.1 (delFlagsAt OPTIMIZED A width mem del_key u) ret', ?_⟩
      rw [← hu, delRec_next] at heq
      rw [← Nat.add_assoc, Nat.add_right_comm, heq, List.range_succ, List.foldr_append, List.foldr_cons,
        List.foldr_nil, Function.iterate_succ_apply', ← hu]

end Levels

section Ends

variable {A : Shape oramSize} {width bound : Nat} (hroom : Room A width bound) (hbound : 0 < bound)
  {mem : Nodes} (hzero : mem.holds 0 = 0) (OPTIMIZED : Bool) {t : LinkedTree} {ptr : Value}
  (h : LinkedAt bound mem ptr t) {TTL : Nat} (hTTL : t.height ≤ TTL)
include hroom hbound hzero h hTTL

/-- With a budget of at least the height, `insert` gets past a leaf, where the new node was linked. -/
theorem insert_ends (insert_key : Value) (hne : t ≠ .nil) :
    (insertNext OPTIMIZED A width mem insert_key)^[TTL] (ptr, false) = (0, true) := by
  have hend : ((insertNext OPTIMIZED A width mem insert_key)^[TTL] (ptr, false)).1 = 0 := by
    refine LinkedAt.ends hzero (fun s hs => ?_) hbound h hTTL
    refine ⟨(compareKeys (mem.key s.1.toNat) insert_key).2, ?_⟩
    simp only [insertNext, readNode_eq hroom OPTIMIZED mem hs, Nodes.holds, selectBits_link]
  have hdummy : ∀ k, ((insertNext OPTIMIZED A width mem insert_key)^[k] (ptr, false)).1 = 0 →
      ((insertNext OPTIMIZED A width mem insert_key)^[k] (ptr, false)).2 = true := by
    intro k hk
    cases k with
    | zero =>
        have hroot : t.root = 0 := h.root.symm.trans (congrArg BitVec.toNat hk)
        exact absurd (h.stored.root_eq_zero.1 hroot) hne
    | succ k =>
        rw [Function.iterate_succ_apply'] at hk ⊢
        obtain ⟨s, hs⟩ : ∃ s, s = (insertNext OPTIMIZED A width mem insert_key)^[k] (ptr, false) := ⟨_, rfl⟩
        rw [← hs] at hk ⊢
        have hz : (insertNext OPTIMIZED A width mem insert_key s).2 =
            (s.2 ^^ (!s.2 && decide ((insertNext OPTIMIZED A width mem insert_key s).1 = 0))) := rfl
        rw [hz, hk]
        cases s.2 <;> rfl
  exact Prod.ext hend (hdummy TTL hend)

/-- With a budget of at least the height, `del` gets past a leaf. -/
theorem del_ends (del_key : Value) :
    ((delNext OPTIMIZED A width mem del_key)^[TTL] (ptr, false, false)).1 = 0 := by
  refine LinkedAt.ends hzero (fun s hs => ?_) hbound h hTTL
  refine ⟨(delFlagsAt OPTIMIZED A width mem del_key s).c_prime, ?_⟩
  simp only [delNext, readNode_eq hroom OPTIMIZED mem hs, Nodes.holds, selectBits_link]

end Ends

/-- An AVL whose links hold the tree, whatever the keys and the balance bits. -/
structure Bare (b : AVL oramSize) (t : LinkedTree) : Prop where
  tree : LinkedAt (b.curMaxIndex + 1) b.oram b.root t
  zero : b.oram.holds 0 = 0
  items : b.numItems = t.size
  room : b.curMaxIndex < oramSize

/-- With a budget of `TTL` the recursion of `insert` consists of its levels, and the call that has no budget left
is past a leaf, where the new node is linked. -/
structure InsertEnds (OPTIMIZED : Bool) (b : AVL oramSize) (TTL : Nat) (insert_address insert_key : Value) :
    Prop where
  levels : insertRec OPTIMIZED (flat oramSize b.curMaxIndex) (width b.curMaxIndex) insert_address insert_key TTL
      b.root false (b.oram, .init) =
    (List.range TTL).foldr
      (fun j => insertUp OPTIMIZED (flat oramSize b.curMaxIndex) (width b.curMaxIndex) b.oram insert_address
        insert_key ((insertNext OPTIMIZED (flat oramSize b.curMaxIndex) (width b.curMaxIndex) b.oram
          insert_key)^[j] (b.root, false)))
      (insertRec OPTIMIZED (flat oramSize b.curMaxIndex) (width b.curMaxIndex) insert_address insert_key 0
        0 true (b.oram, .init))
  past : (insertNext OPTIMIZED (flat oramSize b.curMaxIndex) (width b.curMaxIndex) b.oram insert_key)^[TTL]
    (b.root, false) = (0, true)

/-- With a budget of `TTL` the recursion of `del` consists of its levels, and the call that has no budget left is
past a leaf. -/
def DelEnds (OPTIMIZED : Bool) (b : AVL oramSize) (TTL : Nat) (del_key : Value) : Prop :=
  ∃ found find_successor ret,
    delRec OPTIMIZED (flat oramSize b.curMaxIndex) (width b.curMaxIndex) del_key TTL b.root false false
        (b.oram, .init) =
      (List.range TTL).foldr
        (fun j => delUp OPTIMIZED (flat oramSize b.curMaxIndex) (width b.curMaxIndex) b.oram del_key
          ((delNext OPTIMIZED (flat oramSize b.curMaxIndex) (width b.curMaxIndex) b.oram del_key)^[j]
            (b.root, false, false)))
        (delRec OPTIMIZED (flat oramSize b.curMaxIndex) (width b.curMaxIndex) del_key 0 0 found find_successor
          (b.oram, ret)) ∧
    (delNext OPTIMIZED (flat oramSize b.curMaxIndex) (width b.curMaxIndex) b.oram del_key)^[TTL]
      (b.root, false, false) = (0, found, find_successor)

/-- The recursion of a deletion. -/
theorem Bare.del_ends {b : AVL oramSize} {t : LinkedTree} (h : b.Bare t) {TTL : Nat} (hTTL : t.height ≤ TTL)
    (OPTIMIZED : Bool) (del_key : Value) : DelEnds OPTIMIZED b TTL del_key := by
  obtain ⟨s, hs⟩ : ∃ s, s = (delNext OPTIMIZED (flat oramSize b.curMaxIndex) (width b.curMaxIndex) b.oram
      del_key)^[TTL] (b.root, false, false) := ⟨_, rfl⟩
  have hend : s.1 = 0 :=
    hs ▸ AVL.del_ends (flat_room h.room) (Nat.succ_pos _) h.zero OPTIMIZED h.tree hTTL del_key
  obtain ⟨ret, hlevels⟩ := delRec_iterate OPTIMIZED (flat oramSize b.curMaxIndex) (width b.curMaxIndex) b.oram
    del_key 0 TTL (b.root, false, false) .init
  rw [← hs, hend, Nat.zero_add] at hlevels
  refine ⟨s.2.1, s.2.2, ret, hlevels, ?_⟩
  rw [← hs, ← hend]

/-- The recursion of an insertion into a free slot. -/
theorem Bare.insert_ends {b : AVL oramSize} {t : LinkedTree} (h : b.Bare t) (hslot : b.SlotFree t)
    (hpos : 1 ≤ t.size) (hTTL : t.height ≤ AVL_TTL (b.numItems + 1)) (node : Node) (OPTIMIZED : Bool) :
    ∃ (addr : Value) (b₁ : AVL oramSize), b.insert OPTIMIZED node =
        some (insertBelow OPTIMIZED b₁ (AVL_TTL (b.numItems + 1)) addr node.key) ∧
      InsertEnds OPTIMIZED b₁ (AVL_TTL (b.numItems + 1)) addr node.key := by
  have hcount : b.numItems ≠ 0 := by
    have := h.items
    omega
  have hne : t ≠ .nil := by
    rintro rfl
    exact absurd hpos (by decide)
  obtain ⟨addr, b₁, hins, _, horam, hroot, _, hmax, _⟩ :=
    insert_below hcount hslot.le hslot.room hslot.fits node
  have hle : b.curMaxIndex ≤ b.nextMax := by
    unfold nextMax
    split <;> omega
  have htree₁ : LinkedAt (b₁.curMaxIndex + 1) b₁.oram b₁.root t := by
    rw [horam, hroot, hmax]
    refine ⟨h.tree.root, h.tree.stored.congr fun a ha => ?_, fun a ha => ?_⟩
    · have hne : a ≠ b.slot := fun has => hslot.fresh (has ▸ ha)
      simp only [linkOf, setNode_pointers]
      rw [Function.update_of_ne hne]
      exact ⟨rfl, rfl⟩
    · exact lt_of_lt_of_le (h.tree.inside a ha) (Nat.succ_le_succ hle)
  have hzero₁ : b₁.oram.holds 0 = 0 := by
    rw [horam, setNode_of_ne hslot.ne_zero.symm]
    exact h.zero
  have hend := AVL.insert_ends (flat_room (hmax ▸ hslot.room)) (Nat.succ_pos _) hzero₁ OPTIMIZED htree₁ hTTL
    node.key hne
  refine ⟨addr, b₁, hins OPTIMIZED, ?_, hend⟩
  have hlevels := insertRec_iterate OPTIMIZED (flat oramSize b₁.curMaxIndex) (width b₁.curMaxIndex) b₁.oram addr
    node.key 0 (AVL_TTL (b.numItems + 1)) (b₁.root, false) .init
  rwa [hend, Nat.zero_add] at hlevels

/-- **The budget is enough.**  `AVL_TTL` of the number of nodes, the exact formula, is at least the height of a
balanced tree, and the recursions of an insertion and of a deletion that start with it get past a leaf. -/
theorem TTL_suffices {t : LinkedTree} (hbalanced : t.Balanced) (hpos : 1 ≤ t.size) (hsize : t.size < 2 ^ 31) :
    t.height ≤ AVL_TTL t.size ∧
      (1 < t.size → AVL_TTL t.size = ⌈(1.44 : ℝ) * Real.logb 2 t.size⌉₊) ∧
      ∀ {oramSize : Nat} (b : AVL oramSize), b.Bare t → ∀ OPTIMIZED : Bool,
        (b.SlotFree t → ∀ node : Node, ∃ (addr : Value) (b₁ : AVL oramSize), b.insert OPTIMIZED node =
            some (insertBelow OPTIMIZED b₁ (AVL_TTL (b.numItems + 1)) addr node.key) ∧
          InsertEnds OPTIMIZED b₁ (AVL_TTL (b.numItems + 1)) addr node.key) ∧
        ∀ del_key : Value, DelEnds OPTIMIZED b (AVL_TTL b.numItems) del_key := by
  have hheight := height_le_TTL hbalanced hsize
  refine ⟨hheight, AVL_TTL_eq_ceil, fun b h OPTIMIZED => ⟨fun hslot node => ?_, fun del_key => ?_⟩⟩
  · refine h.insert_ends hslot hpos (hheight.trans (AVL_TTL_mono ?_)) node OPTIMIZED
    rw [h.items]
    exact Nat.le_succ _
  · rw [h.items]
    exact h.del_ends hheight OPTIMIZED del_key

/-- A deletion of 20 from a tree with the keys 10 and 20, which is two levels high, has two steps. -/
theorem TTL_suffices_two : (LinkedTree.node 1 .nil (.node 2 .nil .nil)).height ≤ AVL_TTL 2 ∧
    DelEnds true twoNodes (AVL_TTL 2) 20 := by
  have hsuffices := @TTL_suffices (.node 1 .nil (.node 2 .nil .nil)) ⟨by decide, by decide, trivial,
    by decide, by decide, trivial, trivial⟩ (by decide) (by decide)
  refine ⟨hsuffices.1, (hsuffices.2.2 twoNodes ⟨⟨rfl, ?_, by decide⟩, rfl, rfl, by decide⟩ true).2 20⟩
  decide

end AVL

end Prac
