import Prac.Types
import Mathlib.Data.Nat.Size

/-!
# Shapes (`duoram.hpp`, `duoram.tcc`, `shapes.hpp`, `shapes.tcc`)

* `Shape` — a nesting of `Flat`, `Stride`, `Path` and `Pad` over a memory of `oramSize` cells, with
  the clamping of the constructors.
* `Shape.cell` — the cell that `get_comp` and `get_server` reach from an index: an address of the
  memory, or the constant of a `Pad`.
* `Shape.Valid.cell_lt` — cells lie inside the memory.
* `Shape.addrSize` — the number of bits of an index; `Shape.size_le_pow_addrSize`.
-/

namespace Prac

/-- A shape.  `flat` is the topmost one, which sits on the memory itself. -/
inductive Shape (oramSize : Nat) where
  | flat (start len : Nat)
  | subflat (parent : Shape oramSize) (start len : Nat)
  | stride (parent : Shape oramSize) (offset step : Nat)
  | path (parent : Shape oramSize) (targetNode : Nat)
  | pad (parent : Shape oramSize) (paddedSize : Nat) (padval : Value)

/-- What an index of a shape refers to. -/
inductive Cell where
  | mem (addr : Nat)
  | pad (padval : Value)
  deriving DecidableEq

/-- The length of a `Flat` from `start`, where 0 asks for the maximum. -/
def flatLen (parentsize start len : Nat) : Nat :=
  let start := min start parentsize
  let maxshapesize := parentsize - start
  if len > maxshapesize ∨ len = 0 then maxshapesize else len

/-- The number of elements of a `Stride`.  The sum is of `size_t`s. -/
def strideNumElements (parentsize offset step : Nat) : Nat :=
  let strideregionsize := parentsize - min offset parentsize
  (strideregionsize + step - 1) % 2 ^ 64 / step

/-- The loop of the `Path` constructor: the number of nodes on the path from the root. -/
def pathNumNodes (curNode : Nat) : Nat :=
  if curNode > 1 then pathNumNodes (curNode >>> 1) + 1 else 1
termination_by curNode
decreasing_by
  rw [Nat.shiftRight_one]
  omega

namespace Shape

variable {oramSize : Nat}

/-- `shape_size`. -/
def size : Shape oramSize → Nat
  | flat start len => flatLen oramSize start len
  | subflat parent start len => flatLen parent.size start len
  | stride parent offset step => strideNumElements parent.size offset step
  | path _ targetNode => pathNumNodes targetNode
  | pad _ paddedSize _ => paddedSize

/-- `addr_size`: the number of bits in `shape_size - 1`. -/
def addrSize (shape : Shape oramSize) : Nat :=
  if shape.size > 1 then (shape.size - 1).size else 0

/-- The cell that `get_comp` and `get_server` reach, each shape passing `indexmap(idx)` to its
parent. -/
def cell : Shape oramSize → Nat → Cell
  | flat start _, idx => .mem (idx + min start oramSize)
  | subflat parent start _, idx => parent.cell (idx + min start parent.size)
  | stride parent offset step, idx => parent.cell (min offset parent.size + idx * step)
  | path parent targetNode, idx => parent.cell (targetNode >>> (pathNumNodes targetNode - idx - 1))
  | pad parent _ padval, idx => if idx < parent.size then parent.cell idx else .pad padval

/-- Built without `Pad`, so that it may be written to. -/
def PadFree : Shape oramSize → Prop
  | flat _ _ => True
  | subflat parent _ _ => parent.PadFree
  | stride parent _ _ => parent.PadFree
  | path parent _ => parent.PadFree
  | pad _ _ _ => False

theorem PadFree.cell_mem {shape : Shape oramSize} (h : shape.PadFree) (idx : Nat) :
    ∃ addr, shape.cell idx = .mem addr := by
  induction shape generalizing idx with
  | flat start len => exact ⟨_, rfl⟩
  | subflat parent start len ih => exact ih h _
  | stride parent offset step ih => exact ih h _
  | path parent targetNode ih => exact ih h _
  | pad parent paddedSize padval => exact h.elim

/-- The conditions on the constructors' arguments: a stride advances, and the target node of a path is
asserted to lie in the parent. -/
def Valid : Shape oramSize → Prop
  | flat _ _ => True
  | subflat parent _ _ => parent.Valid
  | stride parent _ step => parent.Valid ∧ 0 < step
  | path parent targetNode => parent.Valid ∧ 0 < targetNode ∧ targetNode < parent.size
  | pad parent _ _ => parent.Valid

theorem add_lt_of_lt_flatLen {parentsize start len idx : Nat}
    (h : idx < flatLen parentsize start len) : idx + min start parentsize < parentsize := by
  unfold flatLen at h
  dsimp only at h
  split at h <;> omega

theorem mul_lt_of_lt_strideNumElements {parentsize offset step idx : Nat} (hstep : 0 < step)
    (h : idx < strideNumElements parentsize offset step) :
    min offset parentsize + idx * step < parentsize := by
  have hlt : idx + 1 ≤ (parentsize - min offset parentsize + step - 1) / step :=
    h.trans_le (Nat.div_le_div_right (Nat.mod_le _ _))
  rw [Nat.le_div_iff_mul_le hstep, Nat.add_mul, Nat.one_mul] at hlt
  omega

/-- A stride that does not run past the range of a `size_t`. -/
theorem strideNumElements_eq {parentsize offset step : Nat} (hfits : parentsize + step ≤ 2 ^ 64) :
    strideNumElements parentsize offset step = (parentsize - min offset parentsize + step - 1) / step := by
  unfold strideNumElements
  dsimp only
  congr 1
  exact Nat.mod_eq_of_lt (by omega)

/-- An index inside a shape reaches a cell inside the memory, or a pad value. -/
theorem Valid.cell_lt {shape : Shape oramSize} (h : shape.Valid) {idx : Nat} (hidx : idx < shape.size)
    {addr : Nat} (haddr : shape.cell idx = .mem addr) : addr < oramSize := by
  induction shape generalizing idx with
  | flat start len =>
      simp only [cell, Cell.mem.injEq] at haddr
      exact haddr ▸ add_lt_of_lt_flatLen hidx
  | subflat parent start len ih => exact ih h (add_lt_of_lt_flatLen hidx) haddr
  | stride parent offset step ih =>
      obtain ⟨hparent, hstep⟩ : parent.Valid ∧ 0 < step := h
      exact ih hparent (mul_lt_of_lt_strideNumElements hstep hidx) haddr
  | path parent targetNode ih =>
      refine ih h.1 (lt_of_le_of_lt ?_ h.2.2) haddr
      rw [Nat.shiftRight_eq_div_pow]
      exact Nat.div_le_self _ _
  | pad parent paddedSize padval ih =>
      simp only [cell] at haddr
      split at haddr
      · rename_i hlt
        exact ih h hlt haddr
      · exact absurd haddr (by simp)

theorem size_le_pow_addrSize (shape : Shape oramSize) : shape.size ≤ 2 ^ shape.addrSize := by
  unfold addrSize
  split
  · have := (shape.size - 1).lt_size_self
    omega
  · omega

/-- A shape of a power of two is indexed by exactly so many bits. -/
theorem addrSize_two_pow {shape : Shape oramSize} {m : Nat} (h : shape.size = 2 ^ m) :
    shape.addrSize = m := by
  unfold addrSize
  rw [h]
  cases m with
  | zero => rfl
  | succ m =>
      have hpos := Nat.two_pow_pos m
      have hdouble : 2 ^ (m + 1) = 2 * 2 ^ m := Nat.pow_succ'
      rw [if_pos (by omega)]
      apply le_antisymm
      · exact Nat.size_le.mpr (by omega)
      · exact Nat.lt_size.mpr (by omega)

end Shape

/-- A shape that may be written to ("Do not write into a Pad!"). -/
abbrev WritableShape (oramSize : Nat) := { shape : Shape oramSize // shape.PadFree }

/-- The `Flat` on the whole memory. -/
def Shape.whole (oramSize : Nat) : WritableShape oramSize := ⟨.flat 0 0, trivial⟩

theorem Shape.whole_size (oramSize : Nat) : (Shape.whole oramSize).val.size = oramSize := by
  simp [Shape.whole, Shape.size, flatLen]

theorem Shape.whole_cell (oramSize addr : Nat) :
    (Shape.whole oramSize).val.cell addr = .mem addr := by
  simp [Shape.whole, Shape.cell]

end Prac
