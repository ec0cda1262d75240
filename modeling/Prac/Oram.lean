import Prac.CdpfCompare
import Prac.DuoramUpdate

/-!
# The reconstructed memory

The data structures on top of the Duoram are modelled on reconstructed values: the words behind the
two players' databases, and the values that the gadgets' output shares stand for.

* `Words`, `Index` — the memory and a shared index (`OblivIndex`) that may grow bit by bit.
* `Shape.get`, `Shape.read`, `Shape.add` — explicit reads, oblivious reads and oblivious updates
  through a shape.  `Shape.read_refines` and `Shape.words_add` tie them to the three-party code.
* `signedCompare`, `select`, `flagmult` — the gadgets; `CDPF.compare_refines` ties the comparison to
  the two-party code.
-/

namespace Prac

/-- The words behind a Duoram of additively shared words. -/
abbrev Words := Nat → Value

/-- A reconstructed `OblivIndex`: the index and its current depth. -/
structure Index where
  idx : Value
  curdepth : Nat

namespace Index

/-- The entry that the accesses through the index reach. -/
def pos (oidx : Index) : Nat := oidx.idx.toNat % 2 ^ oidx.curdepth

/-- `OblivIndex(tio, yield, depth)`: the empty incremental index. -/
def empty : Index := ⟨0, 0⟩

/-- `OblivIndex::incr`. -/
def incr (oidx : Index) (bit : Bool) : Index :=
  ⟨(oidx.idx <<< 1) ||| BitVec.ofNat 64 bit.toNat, oidx.curdepth + 1⟩

end Index

namespace Shape

variable {oramSize : Nat}

/-- The word behind an explicit index. -/
def get (A : Shape oramSize) (mem : Words) (idx : Nat) : Value :=
  match A.cell idx with
  | .mem addr => mem addr
  | .pad padval => padval

/-- An explicit write, `A[idx] = M`. -/
def set (A : Shape oramSize) (mem : Words) (idx : Nat) (M : Value) : Words :=
  match A.cell idx with
  | .mem addr => Function.update mem addr M
  | .pad _ => mem

/-- The `OblivIndex` that `A[idx]` makes from a shared index. -/
def index (A : Shape oramSize) (idx : Value) : Index := ⟨idx, A.addrSize⟩

/-- An oblivious read: the entry, and 0 beyond the shape. -/
def read (A : Shape oramSize) (mem : Words) (oidx : Index) : Value :=
  if oidx.pos < A.size then A.get mem oidx.pos else 0

/-- An oblivious update: the entry is increased by `M`, and beyond the shape nothing is. -/
def add (A : Shape oramSize) (mem : Words) (oidx : Index) (M : Value) : Words :=
  if oidx.pos < A.size then A.set mem oidx.pos (A.get mem oidx.pos + M) else mem

theorem whole_get (mem : Words) (idx : Nat) : (Shape.whole oramSize).val.get mem idx = mem idx := by
  unfold get
  rw [whole_cell]

theorem whole_set (mem : Words) (idx : Nat) (M : Value) :
    (Shape.whole oramSize).val.set mem idx M = Function.update mem idx M := by
  unfold set
  rw [whole_cell]

end Shape

/-! ## Refinement of the three-party accesses -/

/-- The words that the players share. -/
def Duoram.words (mem : Duoram RegAS) : Words := fun addr => (mem.reconstruct addr).ashare

section Refinement

variable {U : Type} [SharedIndex U] {oramSize WIDTH depth : Nat} {prg : PRG WIDTH}
  {ox : OblivIndex U WIDTH}

theorem Shape.reconstruct_eq_get (A : Shape oramSize) (mem : Duoram RegAS) (idx : Nat) :
    (A.reconstruct mem idx).ashare = A.get mem.words idx := by
  unfold Shape.reconstruct Shape.getComp Shape.get
  cases A.cell idx with
  | mem addr => rfl
  | pad padval => exact BitVec.zero_add padval

/-- The shares that an oblivious read returns stand for `Shape.read` of the shared index. -/
theorem Shape.read_refines (nthreads : Player → ℕ+) (serverThreads : ℕ+) {A : Shape oramSize}
    (hA : A.Valid) (hdepth : A.addrSize ≤ depth) (hox : ox.Valid RegAS prg depth)
    {mem : Duoram RegAS} (hmem : mem.Consistent oramSize) (blinds : Player → Nat → RegAS)
    (rho : RegAS) {oidx : Index} (hidx : oidx.pos = ox.index depth) :
    let res := (MemRefS.read prg nthreads serverThreads A ox blinds rho (mem, false)).1
    (res .p0 + res .p1).ashare = A.read mem.words oidx := by
  intro res
  have hread := read_correct_of_consistent prg nthreads serverThreads hA hdepth hox hmem blinds rho
  unfold Shape.read
  rw [hidx, ← A.reconstruct_eq_get]
  refine (congrArg RegAS.ashare hread).trans ?_
  split <;> rfl

/-- A memory in which only the cell of an index has changed, by `M`, has the words of `Shape.add`. -/
theorem Shape.words_add {A : Shape oramSize} (hpad : A.PadFree) {mem mem' : Duoram RegAS} {M : RegAS}
    {oidx : Index} (hspec : ∀ addr, mem'.reconstruct addr = mem.reconstruct addr +
      if oidx.pos < A.size ∧ A.cell oidx.pos = .mem addr then M else 0) :
    mem'.words = A.add mem.words oidx M.ashare := by
  funext addr
  obtain ⟨target, hcell⟩ := hpad.cell_mem oidx.pos
  unfold Shape.add Shape.set Shape.get Duoram.words
  rw [hspec addr, hcell]
  simp only [Cell.mem.injEq]
  by_cases hlt : oidx.pos < A.size
  · rw [if_pos hlt]
    rcases eq_or_ne target addr with rfl | hne
    · rw [if_pos ⟨hlt, rfl⟩, Function.update_self]
      rfl
    · rw [if_neg (fun h => hne h.2), Function.update_of_ne hne.symm, add_zero]
  · rw [if_neg hlt, if_neg (fun h => hlt h.1), add_zero]

end Refinement

/-! ## Gadgets -/

/-- `CDPF::compare` of a shared word with 0: less, equal, greater. -/
def signedCompare (diff : Value) : Bool × Bool × Bool :=
  (diff.msb, decide (diff = 0), decide (diff ≠ 0 ∧ diff.msb = false))

/-- `mpc_select`: `x` if the bit is 0 and `y` if it is 1. -/
def select {α : Type*} (f : Bool) (x y : α) : α := if f then y else x

/-- `mpc_flagmult`. -/
def flagmult (f : Bool) (x : Value) : Value := if f then x else 0

/-- `mpc_oswap`. -/
def oswap (x y : Value) (f : Bool) : Value × Value := if f then (y, x) else (x, y)

/-- The outputs of `compare` stand for the signed comparison. -/
theorem CDPF.compare_refines (prg : DPFnode → Bool → DPFnode) (seeds : Player → DPFnode)
    (asTarget : RegAS) (xsTarget : RegXS) (target : Value) (xs : Player → RegAS) :
    let out := CDPF.compare prg (CDPF.generate prg seeds asTarget xsTarget target) xs
    ((out .p0).1.bshare ^^ (out .p1).1.bshare, (out .p0).2.1.bshare ^^ (out .p1).2.1.bshare,
        (out .p0).2.2.bshare ^^ (out .p1).2.2.bshare) =
      signedCompare (xs .p0 + xs .p1).ashare := by
  intro out
  have h := CDPF.generate_spec prg seeds asTarget xsTarget target
  have hspec := CDPF.compareLocal_spec h (target - ((xs .p0).ashare + (xs .p1).ashare))
  have hsub : target - (target - ((xs .p0).ashare + (xs .p1).ashare)) =
      (xs .p0).ashare + (xs .p1).ashare := by ring
  rw [hsub] at hspec
  obtain ⟨heq, hgt, hlt⟩ := hspec
  unfold signedCompare
  rw [RegAS.ashare_add, ← hgt, ← hlt, ← heq, ← h.compare_eq_local, ← h.compare_eq_local]

/-! ## Words as numbers -/

/-- The largest value that a signed comparison of differences can order. -/
def maxint : Value := 0x7fffffffffffffff

/-- The comparison of two words orders them as numbers. -/
theorem signedCompare_sub {x y : Value} (hx : x ≤ maxint) (hy : y ≤ maxint) :
    signedCompare (x - y) =
      (decide (x.toNat < y.toNat), decide (x.toNat = y.toNat), decide (y.toNat < x.toNat)) := by
  have hx : x.toNat < 2 ^ 63 := Nat.lt_of_le_pred (Nat.two_pow_pos 63) (BitVec.le_def.mp hx)
  have hy : y.toNat < 2 ^ 63 := Nat.lt_of_le_pred (Nat.two_pow_pos 63) (BitVec.le_def.mp hy)
  have hmsb : (x - y).msb = decide (x.toNat < y.toNat) := by
    rw [BitVec.msb_eq_decide, BitVec.toNat_sub, decide_eq_decide]
    omega
  have hzero : x - y = 0 ↔ x.toNat = y.toNat := by
    rw [sub_eq_zero, BitVec.toNat_inj]
  unfold signedCompare
  rw [hmsb, decide_eq_decide.mpr hzero]
  congr 2
  rw [decide_eq_decide, ne_eq, hzero, decide_eq_false_iff_not]
  omega

end Prac
