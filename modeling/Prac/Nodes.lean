import Prac.Oram

/-!
# A memory of tree nodes (`bst.hpp`)

* `Node`, `Nodes` — a node, and the reconstructed memory of a `Duoram<Node>`: one word for each field.
* `Nodes.read`, `Nodes.write`, `Nodes.writePointers` — whole-node and single-field accesses through a
  shape.
* `Shape.Reaches` — an index that refers to the cell at an address; `Nodes.read_of_reaches` and the
  lemmas about the fields of a changed memory.
* `Nodes.holds` — the cell at an address.
-/

namespace Prac

/-- `mpc_select` on words of `nbits` bits. -/
def selectBits (nbits : Nat) (f : Bool) (x y : Value) : Value := select f x y &&& maskBits nbits

/-- A selection of short values is not truncated. -/
theorem selectBits_of_lt {nbits : Nat} (h : nbits ≤ 64) {f : Bool} {x y : Value} (hx : x.toNat < 2 ^ nbits)
    (hy : y.toNat < 2 ^ nbits) : selectBits nbits f x y = select f x y := by
  cases f with
  | false => exact and_maskBits_of_lt h hx
  | true => exact and_maskBits_of_lt h hy

/-- An oblivious assignment `A[oidx] = M`. -/
def Shape.write {oramSize : Nat} (A : Shape oramSize) (mem : Words) (oidx : Index) (M : Value) :
    Words :=
  if oidx.pos < A.size then A.set mem oidx.pos M else mem

/-- `Node`. -/
@[ext] structure Node where
  key : Value
  pointers : Value
  value : Value
  deriving DecidableEq

/-- `Node zero`. -/
instance Node.instZero : Zero Node := ⟨⟨0, 0, 0⟩⟩

@[simp] theorem Node.zero_key : (0 : Node).key = 0 := rfl
@[simp] theorem Node.zero_pointers : (0 : Node).pointers = 0 := rfl
@[simp] theorem Node.zero_value : (0 : Node).value = 0 := rfl

/-- The words behind a `Duoram<Node>`, field by field. -/
@[ext] structure Nodes where
  key : Words
  pointers : Words
  value : Words

namespace Nodes

/-- The node at an address. -/
def holds (mem : Nodes) (addr : Nat) : Node := ⟨mem.key addr, mem.pointers addr, mem.value addr⟩

section Access

variable {oramSize : Nat} (A : Shape oramSize) (mem : Nodes)

/-- `A[oidx]`. -/
def read (oidx : Index) : Node :=
  ⟨A.read mem.key oidx, A.read mem.pointers oidx, A.read mem.value oidx⟩

/-- `A[oidx] = node`. -/
def write (oidx : Index) (node : Node) : Nodes :=
  ⟨A.write mem.key oidx node.key, A.write mem.pointers oidx node.pointers,
    A.write mem.value oidx node.value⟩

/-- `A[idx] = node` with an explicit index. -/
def set (idx : Nat) (node : Node) : Nodes :=
  ⟨A.set mem.key idx node.key, A.set mem.pointers idx node.pointers, A.set mem.value idx node.value⟩

/-- `A[oidx].NODE_KEY = M`. -/
def writeKey (oidx : Index) (M : Value) : Nodes := { mem with key := A.write mem.key oidx M }

/-- `A[oidx].NODE_POINTERS = M`. -/
def writePointers (oidx : Index) (M : Value) : Nodes :=
  { mem with pointers := A.write mem.pointers oidx M }

/-- `A[oidx].NODE_VALUE = M`. -/
def writeValue (oidx : Index) (M : Value) : Nodes := { mem with value := A.write mem.value oidx M }

end Access

end Nodes

/-! ## Accesses inside the memory -/

section Reaches

variable {oramSize : Nat} {A : Shape oramSize} {oidx : Index} {addr : Nat}

/-- The index refers to the cell at `addr`, inside the shape. -/
structure Shape.Reaches (A : Shape oramSize) (oidx : Index) (addr : Nat) : Prop where
  pos : oidx.pos = addr
  lt : addr < A.size
  cell : A.cell addr = .mem addr

theorem Shape.Reaches.read (h : A.Reaches oidx addr) (mem : Words) : A.read mem oidx = mem addr := by
  unfold Shape.read Shape.get
  rw [h.pos, if_pos h.lt, h.cell]

theorem Shape.Reaches.write (h : A.Reaches oidx addr) (mem : Words) (M : Value) :
    A.write mem oidx M = Function.update mem addr M := by
  unfold Shape.write Shape.set
  rw [h.pos, if_pos h.lt, h.cell]

theorem Nodes.read_of_reaches (h : A.Reaches oidx addr) (mem : Nodes) :
    mem.read A oidx = mem.holds addr := by
  unfold Nodes.read Nodes.holds
  rw [h.read, h.read, h.read]

theorem Nodes.write_of_reaches (h : A.Reaches oidx addr) (mem : Nodes) (node : Node) :
    mem.write A oidx node = ⟨Function.update mem.key addr node.key,
      Function.update mem.pointers addr node.pointers, Function.update mem.value addr node.value⟩ := by
  unfold Nodes.write
  rw [h.write, h.write, h.write]

theorem Nodes.writePointers_of_reaches (h : A.Reaches oidx addr) (mem : Nodes) (M : Value) :
    mem.writePointers A oidx M = { mem with pointers := Function.update mem.pointers addr M } := by
  unfold Nodes.writePointers
  rw [h.write]

theorem Nodes.writeKey_of_reaches (h : A.Reaches oidx addr) (mem : Nodes) (M : Value) :
    mem.writeKey A oidx M = { mem with key := Function.update mem.key addr M } := by
  unfold Nodes.writeKey
  rw [h.write]

theorem Nodes.writeValue_of_reaches (h : A.Reaches oidx addr) (mem : Nodes) (M : Value) :
    mem.writeValue A oidx M = { mem with value := Function.update mem.value addr M } := by
  unfold Nodes.writeValue
  rw [h.write]

/-- The whole memory is reached by every address. -/
theorem Shape.whole_reaches {ptr : Value} (h : ptr.toNat < oramSize) :
    (Shape.whole oramSize).val.Reaches ((Shape.whole oramSize).val.index ptr) ptr.toNat := by
  refine ⟨?_, ?_, Shape.whole_cell oramSize _⟩
  · apply Nat.mod_eq_of_lt
    have hsize := (Shape.whole oramSize).val.size_le_pow_addrSize
    rw [Shape.whole_size] at hsize
    exact lt_of_lt_of_le h hsize
  · rwa [Shape.whole_size]

theorem Nodes.set_whole (mem : Nodes) (idx : Nat) (node : Node) :
    mem.set (Shape.whole oramSize).val idx node = ⟨Function.update mem.key idx node.key,
      Function.update mem.pointers idx node.pointers, Function.update mem.value idx node.value⟩ := by
  unfold Nodes.set
  rw [Shape.whole_set, Shape.whole_set, Shape.whole_set]

end Reaches

end Prac
