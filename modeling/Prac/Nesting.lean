import Prac.DuoramRead

/-!
# Nested shapes

* `Shape.RootChain` — the nodes from the root of a heap-ordered tree to a target, one after another.
* `Shape.pathNode_rootChain` — the shift of `Path::indexmap` walks that chain.
* `Shape.Valid.cell_inj` — no nesting of `Flat`, `Stride` and `Path` reaches a cell from two indices.
* `Duoram.Consistent.nesting` — nested shapes are injective and stay inside the Duoram, a `Path` reaches
  the nodes above its target, and a `Pad` extends its parent by cells that hold the pad value.
-/

namespace Prac

namespace Shape

variable {oramSize : Nat}

/-! ## The nodes of a path -/

/-- The node `x` has its parent at `x / 2`; `node` runs from the root to the target. -/
structure RootChain (targetNode numNodes : Nat) (node : Nat → Nat) : Prop where
  pos : 0 < numNodes
  root : node 0 = 1
  parent : ∀ i, i + 1 < numNodes → node (i + 1) / 2 = node i
  target : node (numNodes - 1) = targetNode

namespace RootChain

variable {targetNode numNodes : Nat} {node : Nat → Nat}

theorem node_pos (h : RootChain targetNode numNodes node) {i : Nat} (hi : i < numNodes) :
    0 < node i := by
  induction i with
  | zero => exact h.root ▸ Nat.one_pos
  | succ i ih =>
      have hparent := h.parent i hi
      have := ih (by omega)
      omega

/-- A child is numbered above its parent. -/
theorem strictMonoOn (h : RootChain targetNode numNodes node) :
    StrictMonoOn node (Set.Iio numNodes) := by
  intro i hi j hj hij
  rw [Set.mem_Iio] at hi hj
  induction j with
  | zero => omega
  | succ j ih =>
      have hparent := h.parent j hj
      have hpos := h.node_pos (show j < numNodes by omega)
      obtain hlt | rfl := Nat.lt_succ_iff_lt_or_eq.1 hij
      · have := ih (by omega) hlt
        omega
      · omega

end RootChain

/-- `Path::indexmap`. -/
def pathNode (targetNode idx : Nat) : Nat := targetNode >>> (pathNumNodes targetNode - idx - 1)

/-- The loop of the constructor counts the shifts that take the target to the root. -/
theorem pathNumNodes_spec {curNode : Nat} (hpos : 0 < curNode) :
    0 < pathNumNodes curNode ∧ curNode >>> (pathNumNodes curNode - 1) = 1 := by
  fun_induction pathNumNodes curNode with
  | case1 curNode hgt ih =>
      have hhalf : curNode >>> 1 = curNode / 2 := Nat.shiftRight_one curNode
      obtain ⟨hnodes, hroot⟩ := ih (by omega)
      refine ⟨Nat.succ_pos _, ?_⟩
      rw [Nat.add_sub_cancel]
      rw [← Nat.shiftRight_add, Nat.add_sub_cancel' hnodes] at hroot
      exact hroot
  | case2 curNode hle =>
      exact ⟨Nat.one_pos, by rw [Nat.sub_self, Nat.shiftRight_zero]; omega⟩

theorem pathNode_rootChain {targetNode : Nat} (hpos : 0 < targetNode) :
    RootChain targetNode (pathNumNodes targetNode) (pathNode targetNode) := by
  obtain ⟨hnodes, hroot⟩ := pathNumNodes_spec hpos
  refine ⟨hnodes, hroot, fun i hi => ?_, ?_⟩
  · unfold pathNode
    rw [← Nat.shiftRight_one, ← Nat.shiftRight_add]
    congr 1
    omega
  · unfold pathNode
    rw [show pathNumNodes targetNode - (pathNumNodes targetNode - 1) - 1 = 0 by omega,
      Nat.shiftRight_zero]

/-! ## Nesting -/

/-- A nesting without pads reaches every cell from at most one index. -/
theorem Valid.cell_inj {shape : Shape oramSize} (h : shape.Valid) (hfree : shape.PadFree) {i j : Nat}
    (hi : i < shape.size) (hj : j < shape.size) (heq : shape.cell i = shape.cell j) : i = j := by
  induction shape generalizing i j with
  | flat start len => simpa [cell] using heq
  | subflat parent start len ih =>
      have := ih h hfree (add_lt_of_lt_flatLen hi) (add_lt_of_lt_flatLen hj) heq
      omega
  | stride parent offset step ih =>
      obtain ⟨hparent, hstep⟩ : parent.Valid ∧ 0 < step := h
      have hmul := ih hparent hfree (mul_lt_of_lt_strideNumElements hstep hi)
        (mul_lt_of_lt_strideNumElements hstep hj) heq
      exact Nat.eq_of_mul_eq_mul_right hstep (Nat.add_left_cancel hmul)
  | path parent targetNode ih =>
      obtain ⟨hparent, hpos, hlt⟩ := h
      have hinside (k : Nat) : pathNode targetNode k < parent.size :=
        (Nat.shiftRight_le _ _).trans_lt hlt
      have hnode := ih hparent hfree (hinside i) (hinside j) heq
      exact (pathNode_rootChain hpos).strictMonoOn.injOn (Set.mem_Iio.2 hi) (Set.mem_Iio.2 hj) hnode
  | pad parent paddedSize padval => exact hfree.elim

/-- Inside the parent a `Pad` is its parent. -/
theorem getComp_pad_of_lt {T : Type} [Register T] {parent : Shape oramSize} {i : Nat}
    (hi : i < parent.size) (paddedSize : Nat) (padval : Value) (p : Player) (m : CompDuoram T) :
    (pad parent paddedSize padval).getComp p m i = parent.getComp p m i := by
  unfold getComp
  rw [cell, if_pos hi]

theorem getServer_pad_of_lt {T : Type} [Register T] {parent : Shape oramSize} {i : Nat}
    (hi : i < parent.size) (paddedSize : Nat) (padval : Value) (m : ServerDuoram T) :
    (pad parent paddedSize padval).getServer m i = parent.getServer m i := by
  unfold getServer
  rw [cell, if_pos hi]

/-- Past the parent the entries of a `Pad` are the pad value. -/
theorem reconstruct_pad_of_le {T : Type} [Register T] {parent : Shape oramSize} {i : Nat}
    (hi : parent.size ≤ i) (paddedSize : Nat) (padval : Value) (mem : Duoram T) :
    (pad parent paddedSize padval).reconstruct mem i = Register.set padval := by
  have hcell : (pad parent paddedSize padval).cell i = .pad padval := if_neg (not_lt.2 hi)
  unfold reconstruct getComp
  rw [hcell]
  exact (congrArg (· + _) Register.set_zero).trans (zero_add _)

end Shape

/-- Every nesting of `Flat`, `Stride` and `Path` shapes sends distinct indices to distinct addresses of the
Duoram.  A `Path` on it reaches the chain of nodes from the root to the target.  A `Pad` on it is the parent
as far as the parent goes, and from there to its padded size shares of the pad value that keep the relation
between shares and blinds. -/
theorem Duoram.Consistent.nesting {T : Type} [Register T] {oramSize : Nat} {mem : Duoram T}
    (hmem : mem.Consistent oramSize) {shape : Shape oramSize} (hvalid : shape.Valid)
    (hfree : shape.PadFree) :
    (∀ i < shape.size, ∃ addr < oramSize, shape.cell i = .mem addr) ∧
      (∀ i < shape.size, ∀ j < shape.size, shape.cell i = shape.cell j → i = j) ∧
      (∀ targetNode, 0 < targetNode → targetNode < shape.size →
        ∃ node, Shape.RootChain targetNode (shape.path targetNode).size node ∧
          ∀ i < (shape.path targetNode).size, (shape.path targetNode).cell i = shape.cell (node i)) ∧
      ∀ paddedSize padval,
        (shape.pad paddedSize padval).size = paddedSize ∧
          (∀ i < shape.size,
            (∀ p, (shape.pad paddedSize padval).getComp p (mem.comp p) i = shape.getComp p (mem.comp p) i) ∧
              (shape.pad paddedSize padval).getServer mem.server i = shape.getServer mem.server i) ∧
          ∀ i, shape.size ≤ i → i < paddedSize →
            (shape.pad paddedSize padval).reconstruct mem i = Register.set padval ∧
              (∀ p, ((shape.pad paddedSize padval).getComp p (mem.comp p) i).2.2 =
                ((shape.pad paddedSize padval).getComp p.peer (mem.comp p.peer) i).1 +
                  ((shape.pad paddedSize padval).getComp p.peer (mem.comp p.peer) i).2.1) ∧
              ((shape.pad paddedSize padval).getServer mem.server i).1 =
                ((shape.pad paddedSize padval).getComp .p0 (mem.comp .p0) i).2.1 ∧
              ((shape.pad paddedSize padval).getServer mem.server i).2 =
                ((shape.pad paddedSize padval).getComp .p1 (mem.comp .p1) i).2.1 := by
  refine ⟨fun i hi => ?_, fun i hi j hj heq => hvalid.cell_inj hfree hi hj heq,
    fun targetNode hpos _ => ⟨_, Shape.pathNode_rootChain hpos, fun i _ => rfl⟩,
    fun paddedSize padval => ⟨rfl, fun i hi => ⟨fun p => ?_, ?_⟩, fun i hi hlt => ⟨?_, ?_⟩⟩⟩
  · obtain ⟨addr, haddr⟩ := hfree.cell_mem i
    exact ⟨addr, hvalid.cell_lt hi haddr, haddr⟩
  · exact Shape.getComp_pad_of_lt hi paddedSize padval p (mem.comp p)
  · exact Shape.getServer_pad_of_lt hi paddedSize padval mem.server
  · exact Shape.reconstruct_pad_of_le hi paddedSize padval mem
  · have hpad : (shape.pad paddedSize padval).Valid := hvalid
    exact hmem.view hpad hlt

/-- Entries 2, 4 and 6 of a new Duoram of eight, padded with two sevens. -/
theorem Duoram.Consistent.nesting_stride :
    let shape : Shape 8 := .stride (.subflat (.flat 0 0) 1 0) 1 2
    (∀ i < shape.size, ∀ j < shape.size, shape.cell i = shape.cell j → i = j) ∧
      (shape.pad 5 7).reconstruct (Duoram.create : Duoram RegXS) 4 = ⟨7⟩ := by
  intro shape
  have hvalid : shape.Valid := ⟨trivial, by decide⟩
  have hcreate : (Duoram.create : Duoram RegXS).Consistent 8 := Duoram.create_consistent
  obtain ⟨-, hinj, -, hpad⟩ := Duoram.Consistent.nesting hcreate hvalid trivial
  exact ⟨hinj, ((hpad 5 7).2.2 4 (by decide) (by decide)).1⟩

end Prac
