import Prac.DuoramRun
import Prac.OblivIndex
import Prac.Lib.Simulation

/-!
# A Duoram is an array

* `MemRefS.write`, `Shape.readAt`, `Shape.updateAt`, `Shape.writeAt` — oblivious accesses at a shared
  index, each with keys that are made for it.
* `Access`, `DuoramState.access` — every kind of access, and what it returns to P0 and P1.
* `PlainArray` — an array in the clear, which is what the accesses are for.
* `duoram_simulates_array`, `duoram_refines_array` — a Duoram does to its shares what the array does to
  its entries, and returns shares of what the array returns.
-/

namespace Prac

open Loop Simulation

/-! ## Accesses at a shared index -/

variable {T U : Type} [Register T] [SharedIndex U] {oramSize WIDTH : Nat}

/-- `MemRefS::operator=`. -/
def MemRefS.write (prg : PRG WIDTH) (nthreads : Player → ℕ+) (serverThreads : ℕ+) (shape : Shape oramSize)
    (ox : OblivIndex U WIDTH) (M : Player → T) (blinds : Player → Nat → T) (rho : T)
    (st : Duoram T × Bool) : Option ((Duoram T × Bool) × OblivIndex U WIDTH) :=
  let (oldval, st) := MemRefS.read prg nthreads serverThreads shape ox blinds rho st
  let update p := M p - oldval p
  MemRefS.oramUpdate prg nthreads serverThreads shape ox update blinds st

/-- What the parties draw for an access: its keys, the blinds for the end of explicit-only mode, and the
server's blinding factor. -/
structure AccessCoins (T : Type) where
  keys : TripleCoins 1
  blinds : Player → Nat → T
  rho : T

namespace Shape

/-- `A[idx]` as a value. -/
def readAt (tio : MPCTIO 1) (A : Shape oramSize) (idx : Player → U) (coins : AccessCoins T)
    (st : Duoram T × Bool) : Option ((Player → T) × (Duoram T × Bool)) := do
  let ox ← OblivIndex.create tio coins.keys idx A.addrSize
  some (MemRefS.read tio.prg tio.nthreads tio.serverThreads A ox coins.blinds coins.rho st)

/-- `A[idx] += M`. -/
def updateAt (tio : MPCTIO 1) (A : Shape oramSize) (idx : Player → U) (M : Player → T)
    (coins : AccessCoins T) (st : Duoram T × Bool) : Option (Duoram T × Bool) := do
  let ox ← OblivIndex.create tio coins.keys idx A.addrSize
  let (st, _) ← MemRefS.oramUpdate tio.prg tio.nthreads tio.serverThreads A ox M coins.blinds st
  some st

/-- `A[idx] = M`. -/
def writeAt (tio : MPCTIO 1) (A : Shape oramSize) (idx : Player → U) (M : Player → T)
    (coins : AccessCoins T) (st : Duoram T × Bool) : Option (Duoram T × Bool) := do
  let ox ← OblivIndex.create tio coins.keys idx A.addrSize
  let (st, _) ←
    MemRefS.write tio.prg tio.nthreads tio.serverThreads A ox M coins.blinds coins.rho st
  some st

/-- The index that the players share, as `A` reads it. -/
def secretIndex (A : Shape oramSize) (idx : Player → U) : Nat :=
  (SharedIndex.combine (idx .p0) (idx .p1) A.addrSize).toNat

/-- The shapes that can be accessed at a shared index: with at least two entries, so that the keys have a
level, and at most `2 ^ 30`, so that they can be made. -/
structure Oblivious (A : Shape oramSize) : Prop where
  valid : A.Valid
  two_le : 2 ≤ A.size
  addrSize_le : A.addrSize ≤ RDPF.maxKeyDepth

theorem Oblivious.addrSize_pos {A : Shape oramSize} (h : A.Oblivious) : 1 ≤ A.addrSize := by
  apply Nat.one_le_iff_ne_zero.mpr
  intro hzero
  have hsize := A.size_le_pow_addrSize
  rw [hzero] at hsize
  exact absurd (h.two_le.trans hsize) (by decide)

theorem reconstruct_mem {A : Shape oramSize} {i addr : Nat} (h : A.cell i = .mem addr) (mem : Duoram T) :
    A.reconstruct mem i = mem.reconstruct addr := by
  unfold Shape.reconstruct Shape.getComp
  rw [h]
  rfl

theorem index_eq_secretIndex (A : Shape oramSize) {ox : OblivIndex U WIDTH} {idx : Player → U}
    (h : ox.idx = idx) : ox.index A.addrSize = A.secretIndex idx := by
  rw [OblivIndex.index, h]
  rfl

section Valid

variable {A : Shape oramSize} {tio : MPCTIO 1} {ox : OblivIndex U 1} {idx : Player → U}

/-- With valid keys the shares read stand for the entry, or for 0 beyond the shape. -/
theorem Oblivious.read_valid (h : A.Oblivious) (hvalid : ox.UpdateValid T tio.prg A.addrSize) (hidx : ox.idx = idx)
    (blinds : Player → Nat → T) (rho : T) {mem : Duoram T} (hmem : mem.Consistent oramSize) :
    ∃ res, MemRefS.read tio.prg tio.nthreads tio.serverThreads A ox blinds rho (mem, false) =
        (res, (mem, false)) ∧
      res .p0 + res .p1 =
        if A.secretIndex idx < A.size then A.reconstruct mem (A.secretIndex idx) else 0 := by
  have hread := read_correct_of_consistent tio.prg tio.nthreads tio.serverThreads h.valid le_rfl
    hvalid.toValid hmem blinds rho
  rw [A.index_eq_secretIndex hidx] at hread
  exact ⟨_, rfl, hread⟩

/-- With valid keys an update keeps every address consistent and adds `M` at the cell of the index only. -/
theorem Oblivious.update_valid (_ : A.Oblivious) (hvalid : ox.UpdateValid T tio.prg A.addrSize)
    (hidx : ox.idx = idx) (hwindex : ox.nextWindex = 0) (M : Player → T) (blinds : Player → Nat → T)
    (mem : Duoram T) :
    ∃ mem', MemRefS.oramUpdate tio.prg tio.nthreads tio.serverThreads A ox M blinds (mem, false) =
        some ((mem', false), { ox with nextWindex := ox.nextWindex + 1 }) ∧
      ∀ addr, (mem.ConsistentAt addr → mem'.ConsistentAt addr) ∧
        mem'.reconstruct addr = mem.reconstruct addr +
          if A.secretIndex idx < A.size ∧ A.cell (A.secretIndex idx) = .mem addr
          then M .p0 + M .p1 else 0 := by
  have hspec := oramUpdate_spec tio.nthreads tio.serverThreads le_rfl hvalid (Or.inl rfl)
    (by rw [hwindex]; exact Nat.one_pos) M blinds mem
  rwa [A.index_eq_secretIndex hidx] at hspec

/-- With valid keys a write keeps every address consistent and leaves `M` at the cell of the index. -/
theorem Oblivious.write_valid (h : A.Oblivious) (hvalid : ox.UpdateValid T tio.prg A.addrSize)
    (hidx : ox.idx = idx) (hwindex : ox.nextWindex = 0) (M : Player → T) (blinds : Player → Nat → T) (rho : T)
    {mem : Duoram T} (hmem : mem.Consistent oramSize) :
    ∃ mem', MemRefS.write tio.prg tio.nthreads tio.serverThreads A ox M blinds rho (mem, false) =
        some ((mem', false), { ox with nextWindex := ox.nextWindex + 1 }) ∧
      ∀ addr, (mem.ConsistentAt addr → mem'.ConsistentAt addr) ∧
        mem'.reconstruct addr =
          if A.secretIndex idx < A.size ∧ A.cell (A.secretIndex idx) = .mem addr
          then M .p0 + M .p1 else mem.reconstruct addr := by
  obtain ⟨oldval, hold, hval⟩ := h.read_valid hvalid hidx blinds rho hmem
  obtain ⟨mem', hrun, hspec⟩ := h.update_valid hvalid hidx hwindex (fun p => M p - oldval p) blinds mem
  refine ⟨mem', ?_, fun addr => ⟨(hspec addr).1, ?_⟩⟩
  · rw [MemRefS.write, hold]
    exact hrun
  · rw [(hspec addr).2]
    by_cases hit : A.secretIndex idx < A.size ∧ A.cell (A.secretIndex idx) = .mem addr
    · rw [if_pos hit.1, reconstruct_mem hit.2] at hval
      rw [if_pos hit, if_pos hit, sub_add_sub_comm, hval, add_sub_cancel]
    · rw [if_neg hit, if_neg hit, add_zero]

end Valid

variable [Targeted U] [Updatable T 1]

/-- The shares read stand for the entry, or for 0 beyond the shape. -/
theorem Oblivious.readAt {A : Shape oramSize} (h : A.Oblivious) (tio : MPCTIO 1) (idx : Player → U)
    (coins : AccessCoins T) {mem : Duoram T} (hmem : mem.Consistent oramSize) :
    ∃ res, A.readAt tio idx coins (mem, false) = some (res, (mem, false)) ∧
      res .p0 + res .p1 =
        if A.secretIndex idx < A.size then A.reconstruct mem (A.secretIndex idx) else 0 := by
  obtain ⟨ox, hox, hidx, -, hvalid⟩ := OblivIndex.exists_create T tio coins.keys idx h.addrSize_pos
    h.addrSize_le
  obtain ⟨res, hrun, hres⟩ := h.read_valid hvalid hidx coins.blinds coins.rho hmem
  refine ⟨res, ?_, hres⟩
  rw [Shape.readAt, hox, ← hrun]
  rfl

/-- An update keeps every address consistent and adds `M` at the cell of the index only. -/
theorem Oblivious.updateAt {A : Shape oramSize} (h : A.Oblivious) (tio : MPCTIO 1) (idx : Player → U)
    (M : Player → T) (coins : AccessCoins T) (mem : Duoram T) :
    ∃ mem', A.updateAt tio idx M coins (mem, false) = some (mem', false) ∧
      ∀ addr, (mem.ConsistentAt addr → mem'.ConsistentAt addr) ∧
        mem'.reconstruct addr = mem.reconstruct addr +
          if A.secretIndex idx < A.size ∧ A.cell (A.secretIndex idx) = .mem addr
          then M .p0 + M .p1 else 0 := by
  obtain ⟨ox, hox, hidx, hwindex, hvalid⟩ := OblivIndex.exists_create T tio coins.keys idx
    h.addrSize_pos h.addrSize_le
  obtain ⟨mem', hrun, hspec⟩ := h.update_valid hvalid hidx hwindex M coins.blinds mem
  refine ⟨mem', ?_, hspec⟩
  simp only [Shape.updateAt, hox, hrun, Option.bind_eq_bind, Option.bind_some]

/-- A write keeps every address consistent and leaves `M` at the cell of the index. -/
theorem Oblivious.writeAt {A : Shape oramSize} (h : A.Oblivious) (tio : MPCTIO 1) (idx : Player → U)
    (M : Player → T) (coins : AccessCoins T) {mem : Duoram T} (hmem : mem.Consistent oramSize) :
    ∃ mem', A.writeAt tio idx M coins (mem, false) = some (mem', false) ∧
      ∀ addr, (mem.ConsistentAt addr → mem'.ConsistentAt addr) ∧
        mem'.reconstruct addr =
          if A.secretIndex idx < A.size ∧ A.cell (A.secretIndex idx) = .mem addr
          then M .p0 + M .p1 else mem.reconstruct addr := by
  obtain ⟨ox, hox, hidx, hwindex, hvalid⟩ := OblivIndex.exists_create T tio coins.keys idx
    h.addrSize_pos h.addrSize_le
  obtain ⟨mem', hrun, hspec⟩ := h.write_valid hvalid hidx hwindex M coins.blinds coins.rho hmem
  refine ⟨mem', ?_, hspec⟩
  simp only [Shape.writeAt, hox, hrun, Option.bind_eq_bind, Option.bind_some]

end Shape

/-! ## The array in the clear -/

/-- The entry behind an index of a shape. -/
def Shape.entry (A : Shape oramSize) (a : Nat → T) (idx : Nat) : T :=
  match A.cell idx with
  | .mem addr => a addr
  | .pad padval => Register.set padval

/-- The array with the entry behind an index of a shape replaced. -/
def Shape.store (A : Shape oramSize) (a : Nat → T) (idx : Nat) (v : T) : Nat → T :=
  match A.cell idx with
  | .mem addr => Function.update a addr v
  | .pad _ => a

/-- An array, and whether accesses through the whole-memory shape are in explicit-only mode. -/
structure PlainArray (T : Type) where
  entries : Nat → T
  explicitmode : Bool

/-- An operation on the array.  Accesses are through a shape, at an index that is secret or not. -/
inductive ArrayOp (T : Type) (oramSize : Nat) where
  | init (via : Via oramSize) (f : Nat → T)
  | explicitonly (enable : Bool)
  | read (via : Via oramSize) (secret : Bool) (idx : Nat)
  | add (via : Via oramSize) (secret : Bool) (idx : Nat) (M : T)
  | write (via : Via oramSize) (secret : Bool) (idx : Nat) (M : T)

namespace PlainArray

/-- A new array. -/
def create : PlainArray T := ⟨0, false⟩

/-- An access at a secret index through the whole-memory shape ends explicit-only mode. -/
def modeAfter (a : PlainArray T) (via : Via oramSize) (secret : Bool) : Bool :=
  match via with
  | .whole => a.explicitmode && !secret
  | .sub _ => a.explicitmode

/-- The entry at an index, and 0 beyond the shape. -/
def lookup (a : PlainArray T) (A : Shape oramSize) (idx : Nat) : T :=
  if idx < A.size then A.entry a.entries idx else 0

/-- The entries with the one at an index replaced, and as they were where that is beyond the shape. -/
def replace (a : PlainArray T) (A : Shape oramSize) (idx : Nat) (v : T) : Nat → T :=
  if idx < A.size then A.store a.entries idx v else a.entries

/-- One operation, and what it returns. -/
def step (a : PlainArray T) : ArrayOp T oramSize → PlainArray T × Option T
  | .init via f =>
    (⟨forRange 0 via.shape.size (fun i entries => via.shape.store entries i (f i)) a.entries,
      a.explicitmode⟩, none)
  | .explicitonly enable => (⟨a.entries, enable⟩, none)
  | .read via secret idx =>
    (⟨a.entries, a.modeAfter via secret⟩, some (a.lookup via.shape idx))
  | .add via secret idx M =>
    (⟨a.replace via.shape idx (a.lookup via.shape idx + M), a.modeAfter via secret⟩, none)
  | .write via secret idx M =>
    (⟨a.replace via.shape idx M, a.modeAfter via secret⟩, none)

end PlainArray

/-- Outside explicit-only mode the blinds agree with the database; an access through the whole-memory
shape makes them agree first. -/
def Via.Synced (explicitmode : Bool) : Via oramSize → Prop
  | .whole => True
  | .sub _ => explicitmode = false

/-- The indices that an access may take: a public one inside the shape, or any secret one of a shape that
has keys. -/
def Via.Reaches (via : Via oramSize) (secret : Bool) (idx : Nat) : Prop :=
  if secret then via.shape.Oblivious else idx < via.shape.size

/-- The operations that the code supports: a `Pad` is not written to, and a secret entry is not read
through one shape while another is in explicit-only mode. -/
def ArrayOp.Legal (explicitmode : Bool) : ArrayOp T oramSize → Prop
  | .init via _ => via.shape.PadFree
  | .explicitonly _ => True
  | .read via secret idx => via.Reaches secret idx ∧ (secret = true → via.Synced explicitmode)
  | .add via secret idx _ => via.Reaches secret idx ∧ via.shape.PadFree
  | .write via secret idx _ =>
    via.Reaches secret idx ∧ via.shape.PadFree ∧ (secret = true → via.Synced explicitmode)

/-- The array as a machine that takes legal operations. -/
def PlainArray.machine (T : Type) [Register T] (oramSize : Nat) :
    Machine (PlainArray T) (ArrayOp T oramSize) (Option T) :=
  fun a op a' out => op.Legal a.explicitmode ∧ a.step op = (a', out)

/-! ## The accesses -/

/-- An index that is additively or XOR shared. -/
inductive SecretIndex where
  | as (idx : Player → RegAS)
  | xs (idx : Player → RegXS)

namespace SecretIndex

/-- The entry of a shape that the index stands for. -/
def value (A : Shape oramSize) : SecretIndex → Nat
  | as idx => A.secretIndex idx
  | xs idx => A.secretIndex idx

def read (tio : MPCTIO 1) (A : Shape oramSize) (coins : AccessCoins T) (st : Duoram T × Bool) :
    SecretIndex → Option ((Player → T) × (Duoram T × Bool))
  | as idx => A.readAt tio idx coins st
  | xs idx => A.readAt tio idx coins st

def update (tio : MPCTIO 1) (A : Shape oramSize) (M : Player → T) (coins : AccessCoins T)
    (st : Duoram T × Bool) : SecretIndex → Option (Duoram T × Bool)
  | as idx => A.updateAt tio idx M coins st
  | xs idx => A.updateAt tio idx M coins st

def write (tio : MPCTIO 1) (A : Shape oramSize) (M : Player → T) (coins : AccessCoins T)
    (st : Duoram T × Bool) : SecretIndex → Option (Duoram T × Bool)
  | as idx => A.writeAt tio idx M coins st
  | xs idx => A.writeAt tio idx M coins st

end SecretIndex

/-- An access, with what the parties draw for it. -/
inductive Access (T : Type) (oramSize : Nat) where
  | init (via : Via oramSize) (f : Nat → T)
  | explicitonly (enable : Bool) (blinds : Player → Nat → T)
  | explRead (via : Via oramSize) (idx : Nat)
  | explUpdate (via : Via oramSize) (idx : Nat) (M blind : Player → T)
  | explWrite (via : Via oramSize) (idx : Nat) (M blind : Player → T)
  | oblivRead (via : Via oramSize) (idx : SecretIndex) (coins : AccessCoins T)
  | oblivUpdate (via : Via oramSize) (idx : SecretIndex) (M : Player → T) (coins : AccessCoins T)
  | oblivWrite (via : Via oramSize) (idx : SecretIndex) (M : Player → T) (coins : AccessCoins T)

/-- One access, with the shares that it returns. -/
def DuoramState.access (tio : MPCTIO 1) (s : DuoramState T) :
    Access T oramSize → Option (DuoramState T × Option (Player → T))
  | .init via f => some ({ s with mem := via.shape.init f s.mem }, none)
  | .explicitonly enable blinds =>
    some (s.after (.whole : Via oramSize)
      ((Shape.whole oramSize).val.explicitonly enable blinds (s.mem, s.explicitmode)), none)
  | .explRead via idx => some (s, some (MemRefExpl.read via.shape idx s.mem))
  | .explUpdate via idx M blind =>
    some ({ s with mem := MemRefExpl.update via.shape (s.mode via) idx M blind s.mem }, none)
  | .explWrite via idx M blind =>
    some ({ s with mem := MemRefExpl.write via.shape (s.mode via) idx M blind s.mem }, none)
  | .oblivRead via idx coins =>
    (idx.read tio via.shape coins (s.mem, s.mode via)).map fun (res, st) => (s.after via st, some res)
  | .oblivUpdate via idx M coins =>
    (idx.update tio via.shape M coins (s.mem, s.mode via)).map fun st => (s.after via st, none)
  | .oblivWrite via idx M coins =>
    (idx.write tio via.shape M coins (s.mem, s.mode via)).map fun st => (s.after via st, none)

/-- The operation on the array that an access is. -/
def Access.op : Access T oramSize → ArrayOp T oramSize
  | .init via f => .init via f
  | .explicitonly enable _ => .explicitonly enable
  | .explRead via idx => .read via false idx
  | .explUpdate via idx M _ => .add via false idx (M .p0 + M .p1)
  | .explWrite via idx M _ => .write via false idx (M .p0 + M .p1)
  | .oblivRead via idx _ => .read via true (idx.value via.shape)
  | .oblivUpdate via idx M _ => .add via true (idx.value via.shape) (M .p0 + M .p1)
  | .oblivWrite via idx M _ => .write via true (idx.value via.shape) (M .p0 + M .p1)

/-- The value that two shares stand for. -/
def opened (shares : Option (Player → T)) : Option T := shares.map fun v => v .p0 + v .p1

/-- The memory holds the array: its shares stand for the entries, and its blinds agree with them outside
explicit-only mode. -/
structure DuoramState.Holds (oramSize : Nat) (s : DuoramState T) (a : PlainArray T) : Prop where
  entries : ∀ addr, s.mem.reconstruct addr = a.entries addr
  mode : s.explicitmode = a.explicitmode
  inv : s.Inv oramSize

/-! ## The simulation -/

namespace Shape

theorem reconstruct_eq_entry (A : Shape oramSize) (mem : Duoram T) (idx : Nat) :
    A.reconstruct mem idx = A.entry mem.reconstruct idx := by
  unfold Shape.reconstruct Shape.getComp entry
  cases A.cell idx with
  | mem addr => rfl
  | pad padval =>
      simp only [Player.bit_p0, Player.bit_p1, Bool.false_eq_true, if_false, if_true, Register.set_zero,
        zero_add]

omit [Register T] in
/-- A write through a shape, at the cell that it goes to and at the others. -/
theorem PadFree.store_eq {A : Shape oramSize} (h : A.PadFree) (a : Nat → T) (idx : Nat) (v : T) (addr : Nat) :
    A.store a idx v addr = if A.cell idx = .mem addr then v else a addr := by
  obtain ⟨target, hcell⟩ := h.cell_mem idx
  unfold store
  rw [hcell]
  rcases eq_or_ne target addr with rfl | hne
  · rw [if_pos rfl]
    exact Function.update_self ..
  · rw [if_neg fun heq => hne (Cell.mem.inj heq)]
    exact Function.update_of_ne hne.symm ..

theorem PadFree.entry_eq {A : Shape oramSize} {idx addr : Nat} (h : A.cell idx = .mem addr) (a : Nat → T) :
    A.entry a idx = a addr := by
  unfold entry
  rw [h]

/-- Initialization leaves, at every address, what the same loop leaves in the array. -/
theorem PadFree.init_reconstruct {A : Shape oramSize} (h : A.PadFree) (f : Nat → T) (mem : Duoram T)
    (addr : Nat) :
    (A.init f mem).reconstruct addr =
      forRange 0 A.size (fun i entries => A.store entries i (f i)) mem.reconstruct addr := by
  obtain ⟨last, -, -, hloop⟩ := forRange_overwrite (fun i => A.cell i = .mem addr) A.size
  have harray : forRange 0 A.size (fun i entries => A.store entries i (f i)) mem.reconstruct addr =
      forRange 0 A.size (fun i v => if A.cell i = .mem addr then f i else v) (mem.reconstruct addr) := by
    refine forRange_rel (fun _ (entries : Nat → T) v => entries addr = v) (Nat.zero_le _) rfl ?_
    rintro i entries v - - rfl
    exact h.store_eq entries i (f i) addr
  rw [harray, hloop (fun i _ => f i) (fun _ _ _ => rfl), Duoram.reconstruct_eq_entry]
  simp only [init, forRange_modifyComp_entry, Player.bit_p0, Player.bit_p1, Bool.false_eq_true, if_false,
    if_true]
  rw [hloop (fun i _ => (0, 0, f i)) (fun _ _ _ => rfl), hloop (fun i _ => (f i, 0, 0)) (fun _ _ _ => rfl)]
  cases last with
  | none => rfl
  | some i => exact zero_add (f i)

end Shape

/-- The state after leaving explicit-only mode on the shape of an access. -/
def DuoramState.synced (s : DuoramState T) (via : Via oramSize) (blinds : Player → Nat → T) : DuoramState T :=
  s.after via (via.shape.explicitonly false blinds (s.mem, s.mode via))

namespace DuoramState.Holds

variable {s : DuoramState T} {a : PlainArray T}

theorem create : (DuoramState.create : DuoramState T).Holds oramSize PlainArray.create where
  entries _ := add_zero (0 : T)
  mode := rfl
  inv _ := Duoram.create_consistent

/-- Leaving explicit-only mode changes nothing behind the shares. -/
theorem synced (h : s.Holds oramSize a) (via : Via oramSize) (blinds : Player → Nat → T) :
    (s.synced via blinds).Holds oramSize ⟨a.entries, a.modeAfter via true⟩ where
  entries addr := by
    have hdb : (via.shape.explicitonly false blinds (s.mem, s.mode via)).1.reconstruct addr =
        s.mem.reconstruct addr := by
      unfold Duoram.reconstruct
      rw [Shape.explicitonly_database, Shape.explicitonly_database]
    rw [← h.entries addr, ← hdb]
    cases via <;> rfl
  mode := by
    cases via with
    | whole =>
        rw [DuoramState.synced, DuoramState.after, explicitonly_mode, PlainArray.modeAfter, Bool.not_true,
          Bool.and_false]
    | sub shape => exact h.mode
  inv := h.inv.explicitonly_off via blinds

/-- Then a secret entry can be read. -/
theorem synced_consistent (h : s.Holds oramSize a) {via : Via oramSize} (hvia : via.Synced a.explicitmode)
    (blinds : Player → Nat → T) : (s.synced via blinds).mem.Consistent oramSize := by
  apply (h.synced via blinds).inv
  rw [(h.synced via blinds).mode]
  cases via with
  | whole => exact Bool.and_false _
  | sub shape => exact hvia

/-- Outside explicit-only mode no shape is in it. -/
theorem mode_off (_ : s.Holds oramSize a) (hmode : s.explicitmode = false) (via : Via oramSize) :
    s.mode via = false := by
  cases via with
  | whole => exact hmode
  | sub shape => rfl

end DuoramState.Holds

/-- An explicit write, in either mode, leaves `M` at its cell. -/
theorem MemRefExpl.write_reconstruct (A : Shape oramSize) (explicitmode : Bool) (idx : Nat)
    (M blind : Player → T) (mem : Duoram T) (addr : Nat) :
    (MemRefExpl.write A explicitmode idx M blind mem).reconstruct addr =
      if A.cell idx = .mem addr then M .p0 + M .p1 else mem.reconstruct addr := by
  rw [MemRefExpl.write, MemRefExpl.update_reconstruct]
  by_cases hit : A.cell idx = .mem addr
  · have hold : MemRefExpl.read A idx mem .p0 + MemRefExpl.read A idx mem .p1 = mem.reconstruct addr :=
      Shape.reconstruct_mem hit mem
    rw [if_pos hit, if_pos hit, sub_add_sub_comm, hold, add_sub_cancel]
  · rw [if_neg hit, if_neg hit, add_zero]

/-! ## One access -/

/-- An oblivious access starts by leaving explicit-only mode. -/
theorem MemRefS.starts_synced (tio : MPCTIO 1) (A : Shape oramSize) (ox : OblivIndex U 1) (M : Player → T)
    (blinds : Player → Nat → T) (rho : T) (mem : Duoram T) (explicitmode : Bool) :
    let mem' := (A.explicitonly false blinds (mem, explicitmode)).1
    MemRefS.read tio.prg tio.nthreads tio.serverThreads A ox blinds rho (mem, explicitmode) =
        MemRefS.read tio.prg tio.nthreads tio.serverThreads A ox blinds rho (mem', false) ∧
      MemRefS.oramUpdate tio.prg tio.nthreads tio.serverThreads A ox M blinds (mem, explicitmode) =
        MemRefS.oramUpdate tio.prg tio.nthreads tio.serverThreads A ox M blinds (mem', false) ∧
      MemRefS.write tio.prg tio.nthreads tio.serverThreads A ox M blinds rho (mem, explicitmode) =
        MemRefS.write tio.prg tio.nthreads tio.serverThreads A ox M blinds rho (mem', false) := by
  cases explicitmode with
  | false => exact ⟨rfl, rfl, rfl⟩
  | true => exact ⟨rfl, rfl, rfl⟩

namespace PlainArray

variable {A : Shape oramSize}

theorem lookup_eq {mem : Duoram T} {a : PlainArray T} (h : ∀ addr, mem.reconstruct addr = a.entries addr)
    (idx : Nat) : a.lookup A idx = if idx < A.size then A.reconstruct mem idx else 0 := by
  rw [lookup, A.reconstruct_eq_entry, funext h]

omit [Register T] in
/-- Replacing an entry, address by address. -/
theorem replace_eq (h : A.PadFree) (a : PlainArray T) (idx : Nat) (v : T) (addr : Nat) :
    a.replace A idx v addr = if idx < A.size ∧ A.cell idx = .mem addr then v else a.entries addr := by
  unfold replace
  by_cases hlt : idx < A.size
  · rw [if_pos hlt, h.store_eq]
    simp only [hlt, true_and]
  · rw [if_neg hlt, if_neg fun hit => hlt hit.1]

/-- Adding to an entry, address by address. -/
theorem replace_add_eq (h : A.PadFree) (a : PlainArray T) (idx : Nat) (M : T) (addr : Nat) :
    a.replace A idx (a.lookup A idx + M) addr =
      a.entries addr + if idx < A.size ∧ A.cell idx = .mem addr then M else 0 := by
  rw [replace_eq h]
  by_cases hit : idx < A.size ∧ A.cell idx = .mem addr
  · rw [if_pos hit, if_pos hit, lookup, if_pos hit.1, Shape.PadFree.entry_eq hit.2]
  · rw [if_neg hit, if_neg hit, add_zero]

omit [Register T] in
theorem modeAfter_public (a : PlainArray T) (via : Via oramSize) : a.modeAfter via false = a.explicitmode := by
  cases via with
  | whole => exact Bool.and_true _
  | sub shape => rfl

end PlainArray

/-- The state after an oblivious access, from the one that it starts in. -/
theorem DuoramState.after_synced (s : DuoramState T) (via : Via oramSize) (blinds : Player → Nat → T)
    (mem : Duoram T) :
    s.after via (mem, false) = { s.synced via blinds with mem := mem } := by
  cases via with
  | whole =>
      simp only [DuoramState.after, synced, explicitonly_mode]
  | sub shape => rfl

theorem DuoramState.synced_mem (s : DuoramState T) (via : Via oramSize) (blinds : Player → Nat → T) :
    (s.synced via blinds).mem = (via.shape.explicitonly false blinds (s.mem, s.mode via)).1 := by
  cases via <;> rfl

namespace DuoramState.Holds

variable {s : DuoramState T} {a : PlainArray T} {via : Via oramSize} {tio : MPCTIO 1} {ox : OblivIndex U 1}
  {idx : Player → U}

/-- A read with valid keys returns shares of the entry. -/
theorem read_valid (h : s.Holds oramSize a) (hA : via.shape.Oblivious) (hvia : via.Synced a.explicitmode)
    (hvalid : ox.UpdateValid T tio.prg via.shape.addrSize) (hidx : ox.idx = idx) (blinds : Player → Nat → T)
    (rho : T) :
    ∃ res st, MemRefS.read tio.prg tio.nthreads tio.serverThreads via.shape ox blinds rho (s.mem, s.mode via) =
        (res, st) ∧
      (s.after via st).Holds oramSize ⟨a.entries, a.modeAfter via true⟩ ∧
      res .p0 + res .p1 = a.lookup via.shape (via.shape.secretIndex idx) := by
  have hsynced := h.synced via blinds
  obtain ⟨res, hrun, hres⟩ := hA.read_valid hvalid hidx blinds rho (h.synced_consistent hvia blinds)
  have hstart := (MemRefS.starts_synced tio via.shape ox 0 blinds rho s.mem (s.mode via)).1
  rw [← DuoramState.synced_mem, hrun] at hstart
  refine ⟨res, _, hstart, ?_, hres.trans (PlainArray.lookup_eq hsynced.entries _).symm⟩
  rw [DuoramState.after_synced _ _ blinds]
  exact hsynced

/-- An update with valid keys adds to the entry. -/
theorem update_valid (h : s.Holds oramSize a) (hA : via.shape.Oblivious) (hpad : via.shape.PadFree)
    (hvalid : ox.UpdateValid T tio.prg via.shape.addrSize) (hidx : ox.idx = idx) (hwindex : ox.nextWindex = 0)
    (M : Player → T) (blinds : Player → Nat → T) :
    ∃ st ox', MemRefS.oramUpdate tio.prg tio.nthreads tio.serverThreads via.shape ox M blinds
        (s.mem, s.mode via) = some (st, ox') ∧
      (s.after via st).Holds oramSize (a.step (.add via true (via.shape.secretIndex idx) (M .p0 + M .p1))).1 := by
  have hsynced := h.synced via blinds
  obtain ⟨mem', hrun, hspec⟩ := hA.update_valid hvalid hidx hwindex M blinds (s.synced via blinds).mem
  have hstart := (MemRefS.starts_synced tio via.shape ox M blinds 0 s.mem (s.mode via)).2.1
  rw [← DuoramState.synced_mem, hrun] at hstart
  refine ⟨_, _, hstart, ?_⟩
  rw [DuoramState.after_synced _ _ blinds]
  refine ⟨fun addr => ?_, hsynced.mode, fun hmode addr haddr => (hspec addr).1 (hsynced.inv hmode addr haddr)⟩
  simp only [PlainArray.step, PlainArray.replace_add_eq hpad]
  rw [(hspec addr).2, hsynced.entries]

/-- A write with valid keys replaces the entry. -/
theorem write_valid (h : s.Holds oramSize a) (hA : via.shape.Oblivious) (hpad : via.shape.PadFree)
    (hvia : via.Synced a.explicitmode) (hvalid : ox.UpdateValid T tio.prg via.shape.addrSize) (hidx : ox.idx = idx)
    (hwindex : ox.nextWindex = 0) (M : Player → T) (blinds : Player → Nat → T) (rho : T) :
    ∃ st ox', MemRefS.write tio.prg tio.nthreads tio.serverThreads via.shape ox M blinds rho
        (s.mem, s.mode via) = some (st, ox') ∧
      (s.after via st).Holds oramSize (a.step (.write via true (via.shape.secretIndex idx) (M .p0 + M .p1))).1 := by
  have hsynced := h.synced via blinds
  obtain ⟨mem', hrun, hspec⟩ := hA.write_valid hvalid hidx hwindex M blinds rho (h.synced_consistent hvia blinds)
  have hstart := (MemRefS.starts_synced tio via.shape ox M blinds rho s.mem (s.mode via)).2.2
  rw [← DuoramState.synced_mem, hrun] at hstart
  refine ⟨_, _, hstart, ?_⟩
  rw [DuoramState.after_synced _ _ blinds]
  refine ⟨fun addr => ?_, hsynced.mode, fun hmode addr haddr => (hspec addr).1 (hsynced.inv hmode addr haddr)⟩
  simp only [PlainArray.step, PlainArray.replace_eq hpad]
  rw [(hspec addr).2, hsynced.entries]

end DuoramState.Holds

/-- A legal access succeeds, does to the shares what the operation does to the array, and returns shares of
what the operation returns. -/
theorem DuoramState.Holds.access_spec [Updatable T 1] (tio : MPCTIO 1) {s : DuoramState T} {a : PlainArray T}
    (h : s.Holds oramSize a) {access : Access T oramSize} (hlegal : access.op.Legal a.explicitmode) :
    ∃ s' out, s.access tio access = some (s', out) ∧ s'.Holds oramSize (a.step access.op).1 ∧
      opened out = (a.step access.op).2 := by
  cases access with
  | init via f =>
      refine ⟨_, none, rfl, ⟨fun addr => ?_, h.mode, fun hmode addr haddr => ?_⟩, rfl⟩
      · rw [Shape.PadFree.init_reconstruct hlegal, funext h.entries]
        rfl
      · exact via.shape.init_consistentAt f (h.inv hmode addr haddr)
  | explicitonly enable blinds =>
      cases enable with
      | true => exact ⟨_, none, rfl, ⟨h.entries, rfl, fun hmode => Bool.noConfusion hmode⟩, rfl⟩
      | false =>
          refine ⟨_, none, rfl, ?_, rfl⟩
          have hsynced := h.synced (.whole : Via oramSize) blinds
          rwa [PlainArray.modeAfter, Bool.not_true, Bool.and_false] at hsynced
  | explRead via idx =>
      have hidx : idx < via.shape.size := hlegal.1
      refine ⟨s, _, rfl, ?_, ?_⟩
      · simpa only [Access.op, PlainArray.step, PlainArray.modeAfter_public] using h
      · refine congrArg some ?_
        rw [PlainArray.lookup_eq h.entries, if_pos hidx]
        rfl
  | explUpdate via idx M blind =>
      have hidx : idx < via.shape.size := hlegal.1
      refine ⟨_, none, rfl, ⟨fun addr => ?_, ?_, fun hmode addr haddr => ?_⟩, rfl⟩
      · simp only [Access.op, PlainArray.step, PlainArray.replace_add_eq hlegal.2, hidx, true_and]
        rw [MemRefExpl.update_reconstruct, h.entries]
      · simpa only [Access.op, PlainArray.step, PlainArray.modeAfter_public] using h.mode
      · simp only [h.mode_off hmode via]
        exact MemRefExpl.update_consistentAt _ idx M blind (h.inv hmode addr haddr)
  | explWrite via idx M blind =>
      have hidx : idx < via.shape.size := hlegal.1
      refine ⟨_, none, rfl, ⟨fun addr => ?_, ?_, fun hmode addr haddr => ?_⟩, rfl⟩
      · simp only [Access.op, PlainArray.step, PlainArray.replace_eq hlegal.2.1, hidx, true_and]
        rw [MemRefExpl.write_reconstruct, h.entries]
      · simpa only [Access.op, PlainArray.step, PlainArray.modeAfter_public] using h.mode
      · simp only [h.mode_off hmode via]
        exact MemRefExpl.update_consistentAt _ idx _ blind (h.inv hmode addr haddr)
  | oblivRead via idx coins =>
      have hA : via.shape.Oblivious := hlegal.1
      cases idx with
      | as idx | xs idx =>
          obtain ⟨ox, hox, hidx, -, hvalid⟩ := OblivIndex.exists_create T tio coins.keys idx hA.addrSize_pos
            hA.addrSize_le
          obtain ⟨res, st, hrun, hholds, hres⟩ := h.read_valid hA (hlegal.2 rfl) hvalid hidx coins.blinds coins.rho
          refine ⟨s.after via st, some res, ?_, hholds, congrArg some hres⟩
          simp only [DuoramState.access, SecretIndex.read, Shape.readAt, hox, hrun, Option.bind_eq_bind,
            Option.bind_some, Option.map_some]
  | oblivUpdate via idx M coins =>
      have hA : via.shape.Oblivious := hlegal.1
      cases idx with
      | as idx | xs idx =>
          obtain ⟨ox, hox, hidx, hwindex, hvalid⟩ := OblivIndex.exists_create T tio coins.keys idx hA.addrSize_pos
            hA.addrSize_le
          obtain ⟨st, ox', hrun, hholds⟩ := h.update_valid hA hlegal.2 hvalid hidx hwindex M coins.blinds
          refine ⟨s.after via st, none, ?_, hholds, rfl⟩
          simp only [DuoramState.access, SecretIndex.update, Shape.updateAt, hox, hrun, Option.bind_eq_bind,
            Option.bind_some, Option.map_some]
  | oblivWrite via idx M coins =>
      have hA : via.shape.Oblivious := hlegal.1
      cases idx with
      | as idx | xs idx =>
          obtain ⟨ox, hox, hidx, hwindex, hvalid⟩ := OblivIndex.exists_create T tio coins.keys idx hA.addrSize_pos
            hA.addrSize_le
          obtain ⟨st, ox', hrun, hholds⟩ := h.write_valid hA hlegal.2.1 (hlegal.2.2 rfl) hvalid hidx hwindex M
            coins.blinds coins.rho
          refine ⟨s.after via st, none, ?_, hholds, rfl⟩
          simp only [DuoramState.access, SecretIndex.write, Shape.writeAt, hox, hrun, Option.bind_eq_bind,
            Option.bind_some, Option.map_some]

/-- Every legal operation on the array is simulated by the access. -/
theorem DuoramState.simulates_array [Updatable T 1] (tio : MPCTIO 1) :
    Simulates (DuoramState.Holds oramSize) Access.op opened (ofStep (DuoramState.access tio))
      (PlainArray.machine T oramSize) := by
  rintro s a access a' out hs ⟨hlegal, hstep⟩
  obtain ⟨s', shares, hrun, hs', hout⟩ := hs.access_spec tio hlegal
  rw [hstep] at hs' hout
  exact ⟨s', shares, hrun, hs', hout⟩

/-! ## Runs -/

namespace PlainArray

/-- A sequence of operations, and what they return. -/
def run (a : PlainArray T) : List (ArrayOp T oramSize) → PlainArray T × List (Option T)
  | [] => (a, [])
  | op :: ops => ((run (a.step op).1 ops).1, (a.step op).2 :: (run (a.step op).1 ops).2)

/-- Every operation of a sequence is legal where it is done. -/
def Legal (a : PlainArray T) : List (ArrayOp T oramSize) → Prop
  | [] => True
  | op :: ops => op.Legal a.explicitmode ∧ Legal (a.step op).1 ops

theorem machine_run {ops : List (ArrayOp T oramSize)} {a : PlainArray T} (h : a.Legal ops) :
    (machine T oramSize).Run a ops (a.run ops).1 (a.run ops).2 := by
  induction ops generalizing a with
  | nil => exact .nil a
  | cons op ops ih => exact .cons ⟨h.1, rfl⟩ (ih h.2)

end PlainArray

/-- **A Duoram is an array.**  Any sequence of initializations and of explicit and oblivious reads, updates
and writes, through the whole memory or through other shapes, with explicit-only mode switched on and
off, succeeds from a new Duoram, whatever the parties draw.  The shares that it returns stand for what
the array in the clear returns, and the memory that it leaves for what the array holds. -/
theorem duoram_refines_array [Updatable T 1] (tio : MPCTIO 1) (accesses : List (Access T oramSize))
    (hlegal : PlainArray.create.Legal (accesses.map Access.op)) :
    ∃ s outs, run (DuoramState.access tio) DuoramState.create accesses = some (s, outs) ∧
      outs.map opened = (PlainArray.create.run (accesses.map Access.op)).2 ∧
      ∀ addr, s.mem.reconstruct addr =
        (PlainArray.create.run (accesses.map Access.op)).1.entries addr := by
  obtain ⟨s, outs, hrun, hs, houts⟩ := (DuoramState.simulates_array tio).run DuoramState.Holds.create
    (PlainArray.machine_run hlegal)
  exact ⟨s, outs, run_iff.mpr hrun, houts, hs.entries⟩

/-- On four XOR-shared words: an oblivious write of entry 2, an explicit-only bracket, and oblivious reads
of entry 2 and, through every other entry, of entry 3. -/
theorem duoram_refines_array_four :
    let tio : MPCTIO 1 := ⟨⟨fun _ _ => 0, fun _ _ => 0⟩, fun _ => 1, 1⟩
    let coins : AccessCoins RegXS := ⟨⟨fun _ => 5, fun _ _ => 3, default, fun _ => halftriple (fun _ => 7) 9⟩,
      fun _ _ => ⟨6⟩, ⟨4⟩⟩
    let odd : Via 4 := .sub (.stride (Shape.whole 4).val 1 2)
    ∃ s outs, run (DuoramState.access tio) DuoramState.create
        [.init (.whole : Via 4) fun i => ⟨BitVec.ofNat 64 i⟩,
          .oblivWrite .whole (.xs fun p => if p.bit then ⟨1⟩ else ⟨3⟩) (fun p => if p.bit then ⟨8⟩ else ⟨1⟩) coins,
          .explicitonly true fun _ _ => 0,
          .explWrite .whole 3 (fun p => if p.bit then ⟨0⟩ else ⟨20⟩) fun _ => 0,
          .oblivRead .whole (.as fun p => if p.bit then ⟨-3⟩ else ⟨5⟩) coins,
          .oblivRead odd (.xs fun p => if p.bit then ⟨0⟩ else ⟨1⟩) coins] = some (s, outs) ∧
      outs.map opened = [none, none, none, none, some ⟨9⟩, some ⟨20⟩] := by
  intro tio coins odd
  have hwhole : (Via.whole : Via 4).shape.Oblivious := ⟨trivial, by decide, by decide⟩
  have hodd : odd.shape.Oblivious := ⟨⟨trivial, Nat.two_pos⟩, by decide, by decide⟩
  have hthree : 3 < (Via.whole : Via 4).shape.size := by decide
  obtain ⟨s, outs, hrun, houts, -⟩ := duoram_refines_array tio
    [.init (.whole : Via 4) fun i => ⟨BitVec.ofNat 64 i⟩,
      .oblivWrite .whole (.xs fun p => if p.bit then ⟨1⟩ else ⟨3⟩) (fun p => if p.bit then ⟨8⟩ else ⟨1⟩) coins,
      .explicitonly true fun _ _ => 0,
      .explWrite .whole 3 (fun p => if p.bit then ⟨0⟩ else ⟨20⟩) fun _ => 0,
      .oblivRead .whole (.as fun p => if p.bit then ⟨-3⟩ else ⟨5⟩) coins,
      .oblivRead odd (.xs fun p => if p.bit then ⟨0⟩ else ⟨1⟩) coins]
    ⟨trivial, ⟨hwhole, trivial, fun _ => trivial⟩, trivial,
      ⟨hthree, trivial, fun h => Bool.noConfusion h⟩, ⟨hwhole, fun _ => trivial⟩, ⟨hodd, fun _ => rfl⟩,
      trivial⟩
  exact ⟨s, outs, hrun, houts.trans (by decide)⟩

end Prac
