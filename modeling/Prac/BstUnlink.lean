import Prac.BstInsert
import Prac.Lib.Balance

/-!
# The recursion of a BST deletion

* `delFlags`, `delRec_succ` — the flags of one level, and the recursion in terms of them.
* `Unlinked` — what the recursion leaves behind: a smaller tree, reached by the returned pointer.
* `delRec_quiet` — past the node to delete the recursion changes nothing, if it comes past no other node with
  two children that holds the key.
* `delRec_successor` — looking for the successor takes out the leftmost node.
* `delRec_spec` — the whole recursion.
* `Quiet`, `QuietBelow` — the condition on the nodes that it comes past, for keys below `2^63`.
-/

namespace Prac

namespace BST

variable {oramSize : Nat}

/-! ## One level -/

/-- The flags of one level: the direction `c_prime`, and `F_2`, `F_c2` and `F_c4`. -/
structure DelFlags where
  dir : Bool
  two : Bool
  c2 : Bool
  c4 : Bool

/-- The flags from the links, the comparison and the flag `fs`. -/
def delFlags (l0 r0 lf gt fs : Bool) : DelFlags :=
  let F_1 := l0 ^^ r0
  let F_c1 := lf && F_1
  let F_0 := l0 && r0
  let F_2 := !(F_0 ^^ F_1)
  let c_prime := select F_c1 gt l0
  let F_c2 := lf && F_2
  let c_prime := select F_c2 c_prime true
  let F_c3 := fs && F_2
  let c_prime := select F_c3 c_prime false
  let F_c4 := fs && l0
  let c_prime := select F_c4 c_prime l0
  ⟨c_prime, F_2, F_c2, F_c4⟩

/-- The write of one level: the child in direction `dir` is replaced if the return structure says so. -/
def relink (oramSize : Nat) (mem : Nodes) (ptr pointers : Value) (dir : Bool) (ret : DelReturn) :
    Nodes :=
  let right := select (dir && ret.F_r) (extractRightPtr pointers) ret.ret_ptr
  let left := select (!dir && ret.F_r) (extractLeftPtr pointers) ret.ret_ptr
  mem.writePointers (flat oramSize) ((flat oramSize).index ptr) (setRightPtr (setLeftPtr 0 left) right)

/-- The return structure of one level. -/
def delReturn (flags : DelFlags) (lf af : Bool) (ptr : Value) (ret : DelReturn) : DelReturn :=
  let F_nd := lf && !af
  let F_r := (F_nd && !flags.two) || flags.c4
  { F_ss := ret.F_ss || flags.c2
    N_d := select F_nd ret.N_d ptr
    N_s := select flags.c4 ret.N_s ptr
    F_r := F_r
    ret_ptr := select F_r ptr ret.ret_ptr }

/-- One level of the recursion. -/
theorem delRec_succ (key : Value) (TTL : Nat) (ptr : Value) (af fs : Bool) (mem : Nodes)
    (ret : DelReturn) : delRec oramSize key (TTL + 1) ptr af fs (mem, ret) =
      let node := mem.read (flat oramSize) ((flat oramSize).index ptr)
      let left := extractLeftPtr node.pointers
      let right := extractRightPtr node.pointers
      let cmp := signedCompare (key - node.key)
      let flags := delFlags (decide (left = 0)) (decide (right = 0)) cmp.2.1 cmp.2.2 fs
      match delRec oramSize key TTL (selectBits 32 flags.dir left right) (af || cmp.2.1)
        ((fs || flags.c2) ^^ flags.c4) (mem, ret) with
      | (false, mem, ret) => (false, mem, ret)
      | (true, mem, ret) =>
        (true, relink oramSize mem ptr node.pointers flags.dir ret,
          delReturn flags cmp.2.1 af ptr ret) := rfl

theorem delFlags_two (l0 r0 lf gt fs : Bool) : (delFlags l0 r0 lf gt fs).two = (!l0 && !r0) := by
  cases l0 <;> cases r0 <;> rfl

theorem delFlags_c2 (l0 r0 lf gt fs : Bool) : (delFlags l0 r0 lf gt fs).c2 = (lf && (!l0 && !r0)) := by
  cases l0 <;> cases r0 <;> rfl

theorem delFlags_c4 (l0 r0 lf gt fs : Bool) : (delFlags l0 r0 lf gt fs).c4 = (fs && l0) := rfl

/-- Not looking for a successor: down the only child of a node with the key, to the right of one with
two children, and else by the comparison. -/
theorem delFlags_dir (l0 r0 lf gt : Bool) : (delFlags l0 r0 lf gt false).dir =
    if lf = true ∧ (l0 = false ∨ r0 = false) then (if r0 = true then false else true) else gt := by
  cases l0 <;> cases r0 <;> cases lf <;> cases gt <;> rfl

/-- Looking for a successor: to the right where there is no left child, and else to the left, unless
the key is greater. -/
theorem delFlags_dir_fs (l0 r0 lf gt : Bool) (hgt : gt = false) :
    (delFlags l0 r0 lf gt true).dir = l0 := by
  subst hgt
  cases l0 <;> cases r0 <;> cases lf <;> rfl

/-- The recursion at a node of a tree. -/
theorem delRec_node {mem : Nodes} {key ptr : Value} {l r : LinkedTree}
    (hs : (LinkedTree.node ptr.toNat l r).Stored (leftLink mem) (rightLink mem))
    (hin : ptr.toNat < oramSize) (TTL : Nat) (af fs : Bool) (ret : DelReturn) : delRec oramSize key (TTL + 1) ptr af fs (mem, ret) =
      let pointers := mem.pointers ptr.toNat
      let lf := isKey mem key ptr.toNat
      let flags := delFlags (decide (l = .nil)) (decide (r = .nil)) lf (isAbove mem key ptr.toNat) fs
      match delRec oramSize key TTL
        (select flags.dir (extractLeftPtr pointers) (extractRightPtr pointers)) (af || lf)
        ((fs || flags.c2) ^^ flags.c4) (mem, ret) with
      | (false, mem, ret) => (false, mem, ret)
      | (true, mem, ret) =>
        (true, relink oramSize mem ptr pointers flags.dir ret, delReturn flags lf af ptr ret) := by
  obtain ⟨_, hleft, hright, hl, hr⟩ := hs
  obtain ⟨lt, hcmp⟩ := compare_isKey mem key ptr.toNat
  have hl0 : decide (extractLeftPtr (mem.pointers ptr.toNat) = 0) = decide (l = .nil) := by
    rw [decide_eq_decide, ← hl.root_eq_zero, ← hleft, leftLink]
    exact ⟨fun h => by rw [h]; rfl, fun h => BitVec.eq_of_toNat_eq h⟩
  have hr0 : decide (extractRightPtr (mem.pointers ptr.toNat) = 0) = decide (r = .nil) := by
    rw [decide_eq_decide, ← hr.root_eq_zero, ← hright, rightLink]
    exact ⟨fun h => by rw [h]; rfl, fun h => BitVec.eq_of_toNat_eq h⟩
  have hnode : (mem.holds ptr.toNat).pointers = mem.pointers ptr.toNat := rfl
  have hnodekey : (mem.holds ptr.toNat).key = mem.key ptr.toNat := rfl
  rw [delRec_succ, read_flat mem hin]
  dsimp only
  rw [hnode, hnodekey, hcmp, hl0, hr0, selectBits_extract]

/-- The links after the write of one level. -/
theorem relink_eq (mem : Nodes) {ptr : Value} (hlt : ptr.toNat < oramSize) (pointers : Value)
    (dir : Bool) {ret : DelReturn} (hret : ret.ret_ptr.toNat < 2 ^ 32) :
    ∃ p, relink oramSize mem ptr pointers dir ret =
        { mem with pointers := Function.update mem.pointers ptr.toNat p } ∧
      extractLeftPtr p = select (!dir && ret.F_r) (extractLeftPtr pointers) ret.ret_ptr ∧
      extractRightPtr p = select (dir && ret.F_r) (extractRightPtr pointers) ret.ret_ptr := by
  have hl : (select (!dir && ret.F_r) (extractLeftPtr pointers) ret.ret_ptr).toNat < 2 ^ 32 := by
    cases (!dir && ret.F_r) with
    | false => exact extractLeftPtr_lt _
    | true => exact hret
  have hr : (select (dir && ret.F_r) (extractRightPtr pointers) ret.ret_ptr).toNat < 2 ^ 32 := by
    cases (dir && ret.F_r) with
    | false => exact extractRightPtr_lt _
    | true => exact hret
  exact ⟨_, writePointers_flat mem hlt _, extractLeftPtr_setPtrs _ hl hr, extractRightPtr_setPtrs _ hl hr⟩

/-- Where the returned pointer is the child that is there, the write changes nothing. -/
theorem relink_self (mem : Nodes) {ptr : Value} (hlt : ptr.toNat < oramSize) (dir : Bool)
    {ret : DelReturn} (hret : ret.ret_ptr = select dir (extractLeftPtr (mem.pointers ptr.toNat))
      (extractRightPtr (mem.pointers ptr.toNat))) :
    relink oramSize mem ptr (mem.pointers ptr.toNat) dir ret = mem := by
  unfold relink
  dsimp only
  have hl : select (!dir && ret.F_r) (extractLeftPtr (mem.pointers ptr.toNat)) ret.ret_ptr =
      extractLeftPtr (mem.pointers ptr.toNat) := by
    rw [hret]
    cases dir <;> cases ret.F_r <;> rfl
  have hr : select (dir && ret.F_r) (extractRightPtr (mem.pointers ptr.toNat)) ret.ret_ptr =
      extractRightPtr (mem.pointers ptr.toNat) := by
    rw [hret]
    cases dir <;> cases ret.F_r <;> rfl
  rw [hl, hr, setPtrs_extract, writePointers_flat mem hlt, Function.update_eq_self]

/-! ## Past the node to delete -/

/-- The return structure of a recursion that found nothing to do. -/
def DelReturn.idle (TTL : Nat) (ptr : Value) : DelReturn := ⟨false, 0, 0, decide (TTL = 0), ptr⟩

/-- At the dummy node 0. -/
theorem delRec_dummy {mem : Nodes} (hn : 0 < oramSize) (hzero : mem.holds 0 = 0) {key : Value}
    (hkey : key ≠ 0) (TTL : Nat) (af : Bool) :
    delRec oramSize key TTL 0 af false (mem, .init) =
      if af then (true, mem, .idle TTL 0) else
        (false, mem, { DelReturn.init with F_r := true }) := by
  induction TTL with
  | zero => cases af <;> rfl
  | succ TTL ih =>
      rw [delRec_succ, read_dummy hn hzero]
      dsimp only
      rw [Node.zero_key, Node.zero_pointers, compare_dummy hkey, next_dummy, Bool.or_false, delFlags_c2, delFlags_c4,
        Bool.false_and, Bool.false_and, Bool.or_false, Bool.xor_false, ih]
      have hptrs : mem.pointers 0 = 0 := congrArg Node.pointers hzero
      cases af with
      | false => rfl
      | true =>
          simp only [if_true]
          refine congrArg (Prod.mk true) (Prod.ext ?_ ?_)
          · have hself := @relink_self _ mem 0 hn
              (delFlags (decide (extractLeftPtr 0 = 0)) (decide (extractRightPtr 0 = 0)) false
                (signedCompare (key - 0)).2.2 false).dir (.idle TTL 0) ?_
            · change relink oramSize mem 0 (mem.pointers 0) _ _ = mem at hself
              rwa [hptrs] at hself
            · change (0 : Value) = select _ (extractLeftPtr (mem.pointers 0))
                (extractRightPtr (mem.pointers 0))
              rw [hptrs]
              cases (delFlags (decide (extractLeftPtr 0 = 0)) (decide (extractRightPtr 0 = 0)) false
                (signedCompare (key - 0)).2.2 false).dir <;> decide
          · rfl

/-- Past the node to delete, and not looking for a successor, the recursion changes nothing. -/
theorem delRec_quiet {mem : Nodes} (hn : 0 < oramSize) (hzero : mem.holds 0 = 0) {key : Value}
    (hkey : key ≠ 0) {t : LinkedTree} : ∀ {TTL : Nat} {ptr : Value},
      ptr.toNat = t.root → t.Stored (leftLink mem) (rightLink mem) →
      (∀ a ∈ t.toList, a < oramSize) → t.Quiet (isKey mem key) (isAbove mem key) → t.size ≤ TTL →
      delRec oramSize key TTL ptr true false (mem, .init) = (true, mem, .idle TTL ptr) := by
  induction t with
  | nil =>
      intro TTL ptr hroot _ _ _ _
      obtain rfl : ptr = 0 := BitVec.eq_of_toNat_eq hroot
      exact delRec_dummy hn hzero hkey TTL true
  | node a l r ihl ihr =>
      intro TTL ptr hroot hs hin hquiet hTTL
      rw [LinkedTree.size_node] at hTTL
      cases TTL with
      | zero => omega
      | succ TTL =>
          obtain rfl : ptr.toNat = a := hroot
          have hself := hin ptr.toNat (by simp)
          have hTTLl : l.size ≤ TTL := by omega
          have hTTLr : r.size ≤ TTL := by omega
          have hinl := fun x hx => hin x (LinkedTree.mem_node.2 (.inl hx))
          have hinr := fun x hx => hin x (LinkedTree.mem_node.2 (.inr (.inr hx)))
          rw [delRec_node hs hself]
          obtain ⟨_, hleft, hright, hsl, hsr⟩ := hs
          dsimp only
          rw [LinkedTree.Quiet] at hquiet
          have hc2 : (delFlags (decide (l = .nil)) (decide (r = .nil))
              (isKey mem key ptr.toNat) (isAbove mem key ptr.toNat) false).c2 = false := by
            rw [delFlags_c2]
            cases hkeyed : isKey mem key ptr.toNat with
            | false => rfl
            | true =>
                rw [if_pos hkeyed] at hquiet
                rcases hquiet.1 with hnil | hnil
                · simp [hnil]
                · simp [hnil]
          have hdir := delFlags_dir (decide (l = .nil)) (decide (r = .nil))
            (isKey mem key ptr.toNat) (isAbove mem key ptr.toNat)
          have hnext : ∀ dir : Bool, (delFlags (decide (l = .nil)) (decide (r = .nil))
              (isKey mem key ptr.toNat) (isAbove mem key ptr.toNat) false).dir = dir →
              delRec oramSize key TTL (select dir (extractLeftPtr (mem.pointers ptr.toNat))
                (extractRightPtr (mem.pointers ptr.toNat))) true false (mem, .init) = (true, mem,
                .idle TTL (select dir (extractLeftPtr (mem.pointers ptr.toNat))
                  (extractRightPtr (mem.pointers ptr.toNat)))) := by
            intro dir hd
            rw [hdir] at hd
            cases dir with
            | true =>
                refine ihr hright hsr hinr ?_ hTTLr
                by_cases hkeyed : isKey mem key ptr.toNat = true
                · rw [if_pos hkeyed] at hquiet
                  exact hquiet.2.2
                · rw [if_neg hkeyed] at hquiet
                  rw [if_neg (by simp [hkeyed])] at hd
                  rwa [if_pos hd] at hquiet
            | false =>
                refine ihl hleft hsl hinl ?_ hTTLl
                by_cases hkeyed : isKey mem key ptr.toNat = true
                · rw [if_pos hkeyed] at hquiet
                  exact hquiet.2.1
                · rw [if_neg hkeyed] at hquiet
                  rw [if_neg (by simp [hkeyed])] at hd
                  rwa [if_neg (by simp [hd])] at hquiet
          rw [hc2, delFlags_c4, Bool.false_and, Bool.or_false, Bool.xor_false, Bool.true_or,
            hnext _ rfl]
          dsimp only
          rw [relink_self mem hself _ rfl]
          unfold delReturn
          rw [hc2, delFlags_c4, Bool.not_true, Bool.and_false, Bool.false_and]
          rfl

/-- What the recursion leaves behind of the tree `t` at `ptr`: the tree `t'`, to be linked where the
return structure says so. -/
structure Unlinked (mem mem' : Nodes) (ptr : Value) (t t' : LinkedTree) (ret : DelReturn) : Prop where
  key : mem'.key = mem.key
  value : mem'.value = mem.value
  frame : ∀ a, a ∉ t.toList → mem'.pointers a = mem.pointers a
  stored : t'.Stored (leftLink mem') (rightLink mem')
  ret_ptr : ret.ret_ptr.toNat = t'.root
  link : ptr.toNat < 2 ^ 32 → ret.ret_ptr.toNat < 2 ^ 32
  stay : ret.F_r = false → t'.root = t.root

/-- The link in a direction. -/
def childLink (mem : Nodes) (d : Bool) (addr : Nat) : Nat :=
  (select d (extractLeftPtr (mem.pointers addr)) (extractRightPtr (mem.pointers addr))).toNat

/-- The write of a level after the recursion on the child `x`. -/
theorem Unlinked.below (d : Bool) {mem mem' : Nodes} {ptr : Value} {x x' y : LinkedTree} {ret : DelReturn}
    (hlt : ptr.toNat < oramSize)
    (hs : (LinkedTree.branch d ptr.toNat x y).Stored (leftLink mem) (rightLink mem))
    (hnodup : (LinkedTree.branch d ptr.toNat x y).toList.Nodup) (hsub : ∀ a ∈ x'.toList, a ∈ x.toList)
    (h : Unlinked mem mem' (select d (extractLeftPtr (mem.pointers ptr.toNat))
      (extractRightPtr (mem.pointers ptr.toNat))) x x' ret) :
    let mem'' := relink oramSize mem' ptr (mem.pointers ptr.toNat) d ret
    mem''.key = mem.key ∧ mem''.value = mem.value ∧
      (∀ a, a ∉ (LinkedTree.branch d ptr.toNat x y).toList → mem''.pointers a = mem.pointers a) ∧
      (LinkedTree.branch d ptr.toNat x' y).Stored (leftLink mem'') (rightLink mem'') := by
  obtain ⟨ha, hnear, hfar, _, hy⟩ := (@LinkedTree.stored_branch d _ x y (childLink mem)).1 hs
  obtain ⟨hax, hay, _, _, hcross⟩ := LinkedTree.nodup_branch.1 hnodup
  have hchild : ret.ret_ptr.toNat < 2 ^ 32 := by
    refine h.link ?_
    cases d with
    | false => exact extractLeftPtr_lt _
    | true => exact extractRightPtr_lt _
  obtain ⟨p, hmem, hpl, hpr⟩ := relink_eq mem' hlt (mem.pointers ptr.toNat) d hchild
  have hother : ∀ a, a ≠ ptr.toNat → Function.update mem'.pointers ptr.toNat p a = mem'.pointers a :=
    fun a ha => Function.update_of_ne ha _ _
  intro mem''
  rw [show mem'' = _ from hmem]
  refine ⟨h.key, h.value, fun a hna => ?_,
    (@LinkedTree.stored_branch d _ x' y (childLink _)).2 ⟨ha, ?_, ?_, ?_, ?_⟩⟩
  · rw [LinkedTree.mem_branch, not_or, not_or] at hna
    exact (hother a hna.1).trans (h.frame a hna.2.1)
  · have hnew : select d (extractLeftPtr p) (extractRightPtr p) = select ret.F_r (select d
        (extractLeftPtr (mem.pointers ptr.toNat)) (extractRightPtr (mem.pointers ptr.toNat))) ret.ret_ptr := by
      rw [hpl, hpr]
      cases d <;> rfl
    simp only [childLink, Function.update_self, hnew]
    cases hF : ret.F_r with
    | true => exact h.ret_ptr
    | false => exact hnear.trans (h.stay hF).symm
  · rw [← hfar]
    simp only [childLink, Function.update_self, hpl, hpr]
    cases d <;> rfl
  · refine h.stored.congr fun a ha => ?_
    have hne : a ≠ ptr.toNat := fun hxa => hax (hxa ▸ hsub a ha)
    simp only [childLink, leftLink, rightLink, select, hother a hne, if_true, Bool.false_eq_true, if_false,
      and_self]
  · refine hy.congr fun a ha => ?_
    have hne : a ≠ ptr.toNat := fun hxa => hay (hxa ▸ ha)
    simp only [childLink, hother a hne, h.frame a fun hx => hcross a hx ha, and_self]

/-! ## The successor -/

/-- Looking for the successor of a key that is not above any, the recursion takes out the leftmost node:
`fs` is set, and reset at that node. -/
theorem delRec_successor {mem : Nodes} (hn : 0 < oramSize) (hzero : mem.holds 0 = 0) {key : Value}
    (hkey : key ≠ 0) {t : LinkedTree} : ∀ {TTL : Nat} {ptr : Value},
      t ≠ .nil → ptr.toNat = t.root → t.Stored (leftLink mem) (rightLink mem) →
      (∀ a ∈ t.toList, a < oramSize) → t.toList.Nodup →
      (∀ a ∈ t.toList, isAbove mem key a = false) →
      t.afterMin.Quiet (isKey mem key) (isAbove mem key) → t.size ≤ TTL →
      ∃ mem' ret, delRec oramSize key TTL ptr true true (mem, .init) = (true, mem', ret) ∧
        Unlinked mem mem' ptr t t.deleteMin ret ∧ ret.N_d = 0 ∧ ret.N_s.toNat = t.minAddr := by
  induction t with
  | nil => intro TTL ptr hne; exact absurd rfl hne
  | node a l r ihl _ =>
      intro TTL ptr _ hroot hs hin hnodup hleast hquiet hTTL
      rw [LinkedTree.size_node] at hTTL
      cases TTL with
      | zero => omega
      | succ TTL =>
          obtain rfl : ptr.toNat = a := hroot
          have hself := hin ptr.toNat (by simp)
          have hTTLl : l.size ≤ TTL := by omega
          have hTTLr : r.size ≤ TTL := by omega
          have hinl := fun x hx => hin x (LinkedTree.mem_node.2 (.inl hx))
          have hinr := fun x hx => hin x (LinkedTree.mem_node.2 (.inr (.inr hx)))
          have hgt := hleast ptr.toNat (by simp)
          rw [delRec_node hs hself]
          dsimp only
          rw [delFlags_dir_fs _ _ _ _ hgt, delFlags_c2, delFlags_c4, Bool.true_or, Bool.true_or,
            Bool.true_and, Bool.true_xor]
          by_cases hnil : l = .nil
          · -- the leftmost node: its right child takes its place
            subst hnil
            obtain ⟨_, _, hright, _, hsr⟩ := hs
            have hdec : decide (LinkedTree.nil = LinkedTree.nil) = true := rfl
            have hrun := @delRec_quiet _ mem hn hzero key hkey r TTL
              (select true (extractLeftPtr (mem.pointers ptr.toNat))
                (extractRightPtr (mem.pointers ptr.toNat))) hright hsr hinr hquiet hTTLr
            rw [hdec, Bool.not_true]
            rw [hrun]
            dsimp only
            refine ⟨mem, _, Prod.ext rfl (Prod.ext ?_ rfl), ⟨rfl, rfl, fun _ _ => rfl, ?_, ?_, ?_, ?_⟩, ?_, ?_⟩
            · exact relink_self mem hself true rfl
            · exact hsr
            · simp only [delReturn, delFlags_c4, Bool.and_true, Bool.or_true, select, if_true]
              exact hright
            · intro _
              simp only [delReturn, delFlags_c4, Bool.and_true, Bool.or_true, select, if_true]
              exact extractRightPtr_lt _
            · simp only [delReturn, delFlags_c4, Bool.and_true, Bool.or_true]
              intro h
              cases h
            · simp only [delReturn, Bool.not_true, Bool.and_false, select]
              rfl
            · simp only [delReturn, delFlags_c4, Bool.and_true, select, if_true]
              rfl
          · have hdec : decide (l = .nil) = false := decide_eq_false hnil
            rw [hdec]
            rw [LinkedTree.afterMin_node hnil] at hquiet
            have hnodup' := hnodup
            rw [LinkedTree.toList_node, List.nodup_append] at hnodup'
            have hsl : l.Stored (leftLink mem) (rightLink mem) := hs.2.2.2.1
            have hrec := @ihl TTL (select false (extractLeftPtr (mem.pointers ptr.toNat))
              (extractRightPtr (mem.pointers ptr.toNat))) hnil hs.2.1 hsl hinl hnodup'.1
              (fun x hx => hleast x (LinkedTree.mem_node.2 (.inl hx))) hquiet hTTLl
            obtain ⟨mem', ret, hrun, hunlinked, hNd, hNs⟩ := hrec
            rw [Bool.not_false]
            rw [hrun]
            dsimp only
            obtain ⟨hkeys, hvalues, hframe, hstored⟩ := hunlinked.below false hself hs hnodup
              fun x hx => LinkedTree.mem_of_mem_deleteMin hx
            rw [LinkedTree.deleteMin_node hnil, LinkedTree.minAddr_node hnil]
            refine ⟨_, _, rfl, ⟨hkeys, hvalues, hframe, hstored, ?_, ?_, fun _ => rfl⟩, ?_, ?_⟩
            · simp only [delReturn, delFlags_c4, Bool.not_true, Bool.and_false, Bool.false_and,
                Bool.or_false, select, Bool.false_eq_true, if_false]
              rfl
            · simp only [delReturn, delFlags_c4, Bool.not_true, Bool.and_false, Bool.false_and,
                Bool.or_false, select, Bool.false_eq_true, if_false]
              exact fun h => h
            · simp only [delReturn, Bool.not_true, Bool.and_false, select, Bool.false_eq_true, if_false]
              exact hNd
            · simp only [delReturn, delFlags_c4, Bool.and_false, select, Bool.false_eq_true, if_false]
              exact hNs

/-! ## The whole recursion -/

/-- Both children are there. -/
def twoChildren (l r : LinkedTree) : Bool := !decide (l = .nil) && !decide (r = .nil)

theorem twoChildren_eq_false {l r : LinkedTree} (h : l = .nil ∨ r = .nil) : twoChildren l r = false := by
  rcases h with h | h
  · simp [twoChildren, h]
  · simp [twoChildren, h]

/-- What the recursion returns about the node `x` that it deletes, with its children. -/
structure Deleted (x : Nat) (lx rx : LinkedTree) (ret : DelReturn) : Prop where
  node : ret.N_d.toNat = x
  swap : ret.F_ss = twoChildren lx rx
  successor : ret.N_s.toNat = if twoChildren lx rx then rx.minAddr else 0

/-- At the node to delete, if one of its sides is free: its only child takes its place. -/
theorem delRec_found_one {mem : Nodes} (hn : 0 < oramSize) (hzero : mem.holds 0 = 0) {key : Value}
    (hkey : key ≠ 0) {l r : LinkedTree} {TTL : Nat} {ptr : Value}
    (hs : (LinkedTree.node ptr.toNat l r).Stored (leftLink mem) (rightLink mem))
    (hin : ∀ a ∈ (LinkedTree.node ptr.toNat l r).toList, a < oramSize)
    (hfound : isKey mem key ptr.toNat = true) (hone : l = .nil ∨ r = .nil)
    (hquiet : l.Quiet (isKey mem key) (isAbove mem key) ∧ r.Quiet (isKey mem key) (isAbove mem key))
    (hTTL : l.size + r.size ≤ TTL) :
    ∃ mem' ret, delRec oramSize key (TTL + 1) ptr false false (mem, .init) = (true, mem', ret) ∧
      Unlinked mem mem' ptr (.node ptr.toNat l r) (LinkedTree.node ptr.toNat l r).removeRoot ret ∧
      Deleted ptr.toNat l r ret := by
  have hself := hin ptr.toNat (by simp)
  have hgt := isAbove_of_isKey hfound
  have htwo : (!decide (l = .nil) && !decide (r = .nil)) = false := twoChildren_eq_false hone
  rw [delRec_node hs hself]
  obtain ⟨_, hleft, hright, hsl, hsr⟩ := hs
  dsimp only
  rw [hfound, delFlags_c2, delFlags_c4, htwo, Bool.and_false, Bool.false_and, Bool.or_false,
    Bool.xor_false, Bool.or_true]
  -- the child, on whichever side it is
  have hchild : ∃ child : LinkedTree, (LinkedTree.node ptr.toNat l r).removeRoot = child ∧
      (select (delFlags (decide (l = .nil)) (decide (r = .nil)) true (isAbove mem key ptr.toNat) false).dir
        (extractLeftPtr (mem.pointers ptr.toNat))
        (extractRightPtr (mem.pointers ptr.toNat))).toNat = child.root ∧
      child.Stored (leftLink mem) (rightLink mem) ∧
      (∀ a ∈ child.toList, a < oramSize) ∧ child.Quiet (isKey mem key) (isAbove mem key) ∧
      child.size ≤ TTL := by
    rw [delFlags_dir, hgt]
    by_cases hr : r = .nil
    · have hremove : (LinkedTree.node ptr.toNat l r).removeRoot = l := by
        rw [hr]
        cases l with
        | nil => rfl
        | node b l' r' => rfl
      refine ⟨l, hremove, ?_, hsl, fun a ha => hin a (LinkedTree.mem_node.2 (.inl ha)), hquiet.1,
        by omega⟩
      rw [decide_eq_true hr]
      simp only [if_true, ite_self]
      exact hleft
    · have hl : l = .nil := hone.resolve_right hr
      have hremove : (LinkedTree.node ptr.toNat l r).removeRoot = r := by rw [hl]; rfl
      refine ⟨r, hremove, ?_, hsr, fun a ha => hin a (LinkedTree.mem_node.2 (.inr (.inr ha))),
        hquiet.2, by omega⟩
      rw [decide_eq_false hr]
      simp only [or_true, and_self, if_true, Bool.false_eq_true, if_false]
      exact hright
  obtain ⟨child, hremove, hroot, hstored, hinside, hcquiet, hsize⟩ := hchild
  rw [delRec_quiet hn hzero hkey hroot hstored hinside hcquiet hsize, hremove]
  dsimp only
  refine ⟨mem, _, Prod.ext rfl (Prod.ext (relink_self mem hself _ rfl) rfl),
    ⟨rfl, rfl, fun _ _ => rfl, hstored, ?_, fun _ => ?_, ?_⟩, ⟨?_, ?_, ?_⟩⟩
  · simp only [delReturn, delFlags_two, htwo, Bool.not_false, Bool.and_true, Bool.true_or, select,
      if_true]
    exact hroot
  · simp only [delReturn, delFlags_two, htwo, Bool.not_false, Bool.and_true, Bool.true_or, select,
      if_true, DelReturn.idle]
    split
    · exact extractRightPtr_lt _
    · exact extractLeftPtr_lt _
  · simp only [delReturn, delFlags_two, htwo, Bool.not_false, Bool.and_true, Bool.true_or]
    intro h
    cases h
  · simp only [delReturn, Bool.not_false, Bool.and_true, select, if_true]
  · simp only [delReturn, delFlags_c2, htwo, Bool.and_false, twoChildren_eq_false hone]
    rfl
  · simp only [delReturn, delFlags_c4, Bool.false_and, select, twoChildren_eq_false hone,
      Bool.false_eq_true, if_false]
    rfl

/-- At the node to delete, if it has two children: its successor is taken out. -/
theorem delRec_found_two {mem : Nodes} (hn : 0 < oramSize) (hzero : mem.holds 0 = 0) {key : Value}
    (hkey : key ≠ 0) {l r : LinkedTree} {TTL : Nat} {ptr : Value}
    (hs : (LinkedTree.node ptr.toNat l r).Stored (leftLink mem) (rightLink mem))
    (hin : ∀ a ∈ (LinkedTree.node ptr.toNat l r).toList, a < oramSize)
    (hnodup : (LinkedTree.node ptr.toNat l r).toList.Nodup)
    (hleast : ∀ a ∈ r.toList, isAbove mem key a = false)
    (hfound : isKey mem key ptr.toNat = true) (hl : l ≠ .nil) (hr : r ≠ .nil)
    (hquiet : r.afterMin.Quiet (isKey mem key) (isAbove mem key)) (hTTL : r.size ≤ TTL) :
    ∃ mem' ret, delRec oramSize key (TTL + 1) ptr false false (mem, .init) = (true, mem', ret) ∧
      Unlinked mem mem' ptr (.node ptr.toNat l r) (LinkedTree.node ptr.toNat l r).removeRoot ret ∧
      Deleted ptr.toNat l r ret := by
  have hself := hin ptr.toNat (by simp)
  have htwo : twoChildren l r = true := by simp [twoChildren, hl, hr]
  rw [delRec_node hs hself]
  dsimp only
  rw [hfound, delFlags_dir, delFlags_c2, delFlags_c4, decide_eq_false hl, decide_eq_false hr,
    Bool.false_or, Bool.and_false, Bool.xor_false, Bool.false_or]
  simp only [or_self, and_self, if_true, Bool.false_eq_true, if_false, Bool.not_false, Bool.and_self]
  have hnodup' := hnodup
  rw [LinkedTree.toList_node, List.nodup_append, List.nodup_cons] at hnodup'
  have hsr : r.Stored (leftLink mem) (rightLink mem) := hs.2.2.2.2
  have hrec := @delRec_successor _ mem hn hzero key hkey r TTL
    (select true (extractLeftPtr (mem.pointers ptr.toNat)) (extractRightPtr (mem.pointers ptr.toNat)))
    hr hs.2.2.1 hsr (fun x hx => hin x (LinkedTree.mem_node.2 (.inr (.inr hx)))) hnodup'.2.1.2
    hleast hquiet hTTL
  obtain ⟨mem', ret, hrun, hunlinked, hNd, hNs⟩ := hrec
  rw [hrun]
  dsimp only
  obtain ⟨hkeys, hvalues, hframe, hstored⟩ := hunlinked.below true hself hs hnodup
    fun x hx => LinkedTree.mem_of_mem_deleteMin hx
  rw [LinkedTree.removeRoot_node hl hr]
  refine ⟨_, _, rfl, ⟨hkeys, hvalues, hframe, hstored, ?_, ?_, fun _ => rfl⟩, ⟨?_, ?_, ?_⟩⟩
  · simp only [delReturn, delFlags_two, delFlags_c4, Bool.not_false, Bool.and_self, Bool.not_true,
      Bool.and_false, Bool.or_self, select, Bool.false_eq_true, if_false]
    rfl
  · simp only [delReturn, delFlags_two, delFlags_c4, Bool.not_false, Bool.and_self, Bool.not_true,
      Bool.and_false, Bool.or_self, select, Bool.false_eq_true, if_false]
    exact fun h => h
  · simp only [delReturn, Bool.not_false, Bool.and_self, select, if_true]
  · simp only [delReturn, delFlags_c2, Bool.not_false, Bool.and_self, Bool.or_true, htwo]
  · simp only [delReturn, delFlags_c4, Bool.and_self, select, Bool.false_eq_true, if_false, htwo,
      if_true]
    exact hNs

/-- At a node without the key, whose child `x` the recursion goes into: the node stays. -/
theorem delRec_pass (d : Bool) {mem : Nodes} {key : Value} {x x' y : LinkedTree}
    {TTL : Nat} {ptr : Value} {node : Nat} {ln rn : LinkedTree}
    (hs : (LinkedTree.branch d ptr.toNat x y).Stored (leftLink mem) (rightLink mem))
    (hself : ptr.toNat < oramSize)
    (hnodup : (LinkedTree.branch d ptr.toNat x y).toList.Nodup) (hsub : ∀ a ∈ x'.toList, a ∈ x.toList)
    (hmiss : isKey mem key ptr.toNat = false) (hdir : isAbove mem key ptr.toNat = d)
    (hrec : ∃ mem' ret, delRec oramSize key TTL (select d (extractLeftPtr (mem.pointers ptr.toNat))
        (extractRightPtr (mem.pointers ptr.toNat))) false false (mem, .init) = (true, mem', ret) ∧
      Unlinked mem mem' (select d (extractLeftPtr (mem.pointers ptr.toNat))
        (extractRightPtr (mem.pointers ptr.toNat))) x x' ret ∧ Deleted node ln rn ret) :
    ∃ mem' ret, delRec oramSize key (TTL + 1) ptr false false (mem, .init) = (true, mem', ret) ∧
      Unlinked mem mem' ptr (LinkedTree.branch d ptr.toNat x y) (LinkedTree.branch d ptr.toNat x' y) ret ∧
      Deleted node ln rn ret := by
  obtain ⟨mem', ret, hrun, hunlinked, hdeleted⟩ := hrec
  obtain ⟨hkeys, hvalues, hframe, hstored⟩ := hunlinked.below d hself hs hnodup hsub
  obtain ⟨l, r, hnode⟩ : ∃ l r, LinkedTree.branch d ptr.toNat x y = .node ptr.toNat l r := by
    cases d with
    | false => exact ⟨x, y, rfl⟩
    | true => exact ⟨y, x, rfl⟩
  rw [hnode] at hs
  rw [delRec_node hs hself]
  dsimp only
  rw [hmiss, delFlags_dir, delFlags_c2, delFlags_c4, Bool.false_and, Bool.false_and, Bool.or_false,
    Bool.xor_false, if_neg (by simp), hdir, hrun]
  refine ⟨_, _, rfl, ⟨hkeys, hvalues, hframe, hstored, ?_, ?_, fun _ => ?_⟩, ⟨?_, ?_, ?_⟩⟩
  · simp only [delReturn, delFlags_c4, Bool.false_and, Bool.or_false, select, Bool.false_eq_true, if_false,
      LinkedTree.root_branch]
  · simp only [delReturn, delFlags_c4, Bool.false_and, Bool.or_false, select, Bool.false_eq_true, if_false]
    exact fun h => h
  · rw [LinkedTree.root_branch, LinkedTree.root_branch]
  · simp only [delReturn, Bool.false_and, select, Bool.false_eq_true, if_false]
    exact hdeleted.node
  · simp only [delReturn, delFlags_c2, Bool.false_and, Bool.or_false]
    exact hdeleted.swap
  · simp only [delReturn, delFlags_c4, Bool.false_and, select, Bool.false_eq_true, if_false]
    exact hdeleted.successor

/-- **The recursion.**  It takes the node to delete, or its successor, out of the tree, and returns
their addresses. -/
theorem delRec_spec {mem : Nodes} (hn : 0 < oramSize) (hzero : mem.holds 0 = 0) {key : Value}
    (hkey : key ≠ 0) {x : Nat} {lx rx : LinkedTree} {t : LinkedTree} :
    ∀ {TTL : Nat} {ptr : Value}, ptr.toNat = t.root → t.Stored (leftLink mem) (rightLink mem) →
      (∀ a ∈ t.toList, a < oramSize) → t.toList.Nodup →
      t.find (isKey mem key) (isAbove mem key) = .node x lx rx →
      (∀ a ∈ rx.toList, isAbove mem key a = false) →
      (LinkedTree.node x lx rx).QuietBelow (isKey mem key) (isAbove mem key) → t.size ≤ TTL →
      ∃ mem' ret, delRec oramSize key TTL ptr false false (mem, .init) = (true, mem', ret) ∧
        Unlinked mem mem' ptr t (t.remove (isKey mem key) (isAbove mem key)) ret ∧
        Deleted x lx rx ret := by
  induction t with
  | nil => intro TTL ptr _ _ _ _ hfind; cases hfind
  | node a l r ihl ihr =>
      intro TTL ptr hroot hs hin hnodup hfind hleast hquiet hTTL
      rw [LinkedTree.size_node] at hTTL
      cases TTL with
      | zero => omega
      | succ TTL =>
          obtain rfl : ptr.toNat = a := hroot
          have hself := hin ptr.toNat (by simp)
          have hTTLl : l.size ≤ TTL := by omega
          have hTTLr : r.size ≤ TTL := by omega
          rw [LinkedTree.find] at hfind
          rw [LinkedTree.remove]
          cases hlf : isKey mem key ptr.toNat with
          | true =>
              rw [if_pos hlf] at hfind
              cases hfind
              rw [if_pos rfl]
              rw [LinkedTree.QuietBelow] at hquiet
              by_cases hone : lx = .nil ∨ rx = .nil
              · rw [if_pos hone] at hquiet
                exact delRec_found_one hn hzero hkey hs hin hlf hone hquiet (by omega)
              · rw [if_neg hone] at hquiet
                rw [not_or] at hone
                exact delRec_found_two hn hzero hkey hs hin hnodup hleast hlf hone.1 hone.2
                  hquiet hTTLr
          | false =>
              rw [if_neg (by simp [hlf])] at hfind
              rw [if_neg (by simp)]
              have hnodup' := hnodup
              rw [LinkedTree.toList_node, List.nodup_append, List.nodup_cons] at hnodup'
              have hsub : ∀ {s : LinkedTree}, ∀ y ∈ (s.remove (isKey mem key) (isAbove mem key)).toList,
                  y ∈ s.toList := fun y hy => LinkedTree.mem_of_mem_remove hy
              cases hdir : isAbove mem key ptr.toNat with
              | true =>
                  rw [if_pos hdir] at hfind
                  rw [if_pos rfl]
                  exact delRec_pass true hs hself hnodup hsub hlf hdir (ihr hs.2.2.1 hs.2.2.2.2
                    (fun y hy => hin y (LinkedTree.mem_node.2 (.inr (.inr hy)))) hnodup'.2.1.2 hfind hleast
                    hquiet hTTLr)
              | false =>
                  rw [if_neg (by simp [hdir])] at hfind
                  rw [if_neg (by simp)]
                  exact delRec_pass false hs hself hnodup hsub hlf hdir (ihl hs.2.1 hs.2.2.2.1
                    (fun y hy => hin y (LinkedTree.mem_node.2 (.inl hy))) hnodup'.1 hfind hleast hquiet
                    hTTLl)

/-! ## Keys below `2 ^ 63` -/

/-- The key is here. -/
def found (mem : Nodes) (key : Value) (addr : Nat) : Bool := decide (key.toNat = keyOf mem addr)

/-- The path of the recursion below the deleted node meets no node with two children that holds the
key. -/
def Quiet (mem : Nodes) (key : Value) : LinkedTree → Prop
  | .nil => True
  | .node a l r =>
    if key.toNat = keyOf mem a then (l = .nil ∨ r = .nil) ∧ Quiet mem key l ∧ Quiet mem key r
    else if goRight mem key a then Quiet mem key r else Quiet mem key l

/-- The condition on the tree below the node to delete: where the recursion comes past nodes that it
does not have to change, it leaves them alone. -/
def QuietBelow (mem : Nodes) (key : Value) : LinkedTree → Prop
  | .nil => True
  | .node _ l r => if l = .nil ∨ r = .nil then Quiet mem key l ∧ Quiet mem key r
    else Quiet mem key r.afterMin

theorem quiet_iff {mem : Nodes} {key : Value} {t : LinkedTree} :
    Quiet mem key t ↔ t.Quiet (found mem key) (goRight mem key) := by
  induction t with
  | nil => exact Iff.rfl
  | node a l r ihl ihr =>
      have hfound : found mem key a = true ↔ key.toNat = keyOf mem a := decide_eq_true_iff
      rw [Quiet, LinkedTree.Quiet, ihl, ihr]
      simp only [hfound]

theorem quietBelow_iff {mem : Nodes} {key : Value} {t : LinkedTree} :
    QuietBelow mem key t ↔ t.QuietBelow (found mem key) (goRight mem key) := by
  cases t with
  | nil => exact Iff.rfl
  | node a l r => rw [QuietBelow, LinkedTree.QuietBelow, quiet_iff, quiet_iff, quiet_iff]

/-- Keys below `2^63` are compared as numbers. -/
theorem isKey_isAbove_of_lt {mem : Nodes} {key : Value} (hkey : key.toNat < 2 ^ 63) {a : Nat}
    (ha : keyOf mem a < 2 ^ 63) : isKey mem key a = found mem key a ∧ isAbove mem key a = goRight mem key a :=
  ⟨decide_eq_decide.2 BitVec.toNat_inj.symm, isAbove_of_lt hkey ha⟩

end BST

end Prac
