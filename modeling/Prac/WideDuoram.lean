import Prac.DuoramArray

/-!
# A Duoram of wide cells (`cell.hpp`, `bst.hpp`)

The cells of a Duoram may be structures of registers.  Reads of a whole cell evaluate one key for all of its
fields; updates run a coroutine for each field, with a key of its own.

* `WideState` — the memory of such a Duoram, field by field.
* `WideState.read`, `WideState.update`, `WideState.readField`, … — accesses to a whole cell and to one field.
* `WideArray` — an array of structures in the clear.
* `WideState.simulates_array`, `wide_duoram_refines_array` — the Duoram does to its shares what the array does
  to its entries, and returns shares of what the array returns.
-/

namespace Prac

open Loop Simulation

/-- The fields of a wide cell, in the order in which `T::update` lists its coroutines. -/
class Fields (ι : Type) where
  all : List ι
  nodup : all.Nodup
  mem_all : ∀ f, f ∈ all

/-- A wide cell: a register for each field.  The operators of the cell act on each of them. -/
abbrev Wide {ι : Type} (F : ι → Type) := ∀ f, F f

variable {ι : Type} [DecidableEq ι] {F : ι → Type} [∀ f, Register (F f)] {U : Type} [SharedIndex U]
  {oramSize : Nat}

/-- The memory of the three parties, field by field, and the whole-memory shape's explicit-only mode. -/
structure WideState (F : ι → Type) where
  mem : ∀ f, Duoram (F f)
  explicitmode : Bool

/-- What the parties draw for an access with one index: its keys, the blinds for the end of explicit-only mode, and
the server's blinding factor. -/
structure WideCoins (F : ι → Type) where
  keys : TripleCoins 1
  blinds : Player → Nat → Wide F
  rho : Wide F

/-- What is drawn for the access to one field. -/
def WideCoins.field (coins : WideCoins F) (f : ι) : AccessCoins (F f) :=
  ⟨coins.keys, fun p i => coins.blinds p i f, coins.rho f⟩

namespace WideState

/-- A new Duoram. -/
def create : WideState F := ⟨fun _ => Duoram.create, false⟩

/-- What references to one field reach. -/
def field (s : WideState F) (f : ι) : DuoramState (F f) := ⟨s.mem f, s.explicitmode⟩

/-- The state with the memory of one field replaced. -/
def setField (s : WideState F) (f : ι) (mem : Duoram (F f)) : WideState F :=
  { s with mem := Function.update s.mem f mem }

/-! ## Explicit accesses -/

/-- `Shape::init`. -/
def init (s : WideState F) (via : Via oramSize) (c : Nat → Wide F) : WideState F :=
  { s with mem := fun f => via.shape.init (fun i => c i f) (s.mem f) }

/-- `A[idx]`. -/
def explRead (s : WideState F) (via : Via oramSize) (idx : Nat) : ∀ f, Player → F f :=
  fun f => MemRefExpl.read via.shape idx (s.mem f)

/-- `A[idx] += M`. -/
def explUpdate (s : WideState F) (via : Via oramSize) (idx : Nat) (M blind : ∀ f, Player → F f) : WideState F :=
  { s with mem := fun f => MemRefExpl.update via.shape ((s.field f).mode via) idx (M f) (blind f) (s.mem f) }

/-- `A[idx] = M`. -/
def explWrite (s : WideState F) (via : Via oramSize) (idx : Nat) (M blind : ∀ f, Player → F f) : WideState F :=
  { s with mem := fun f => MemRefExpl.write via.shape ((s.field f).mode via) idx (M f) (blind f) (s.mem f) }

/-- `A[idx].field(f)`. -/
def explReadField (s : WideState F) (f : ι) (via : Via oramSize) (idx : Nat) : Player → F f :=
  MemRefExpl.read via.shape idx (s.mem f)

/-- `A[idx].field(f) += M`. -/
def explUpdateField (s : WideState F) (f : ι) (via : Via oramSize) (idx : Nat) (M blind : Player → F f) :
    WideState F :=
  s.setField f (MemRefExpl.update via.shape ((s.field f).mode via) idx M blind (s.mem f))

/-- `A[idx].field(f) = M`. -/
def explWriteField (s : WideState F) (f : ι) (via : Via oramSize) (idx : Nat) (M blind : Player → F f) :
    WideState F :=
  s.setField f (MemRefExpl.write via.shape ((s.field f).mode via) idx M blind (s.mem f))

/-! ## Oblivious accesses -/

/-- `explicitonly(false)` on the shape of an access, which blinds all fields anew. -/
def synced (s : WideState F) (via : Via oramSize) (blinds : Player → Nat → Wide F) : WideState F where
  mem f := ((s.field f).synced via fun p i => blinds p i f).mem
  explicitmode :=
    match via with
    | .whole => false
    | .sub _ => s.explicitmode

/-- `explicitonly` on the whole-memory shape. -/
def explicitonly (s : WideState F) (oramSize : Nat) (enable : Bool) (blinds : Player → Nat → Wide F) :
    WideState F :=
  if enable then { s with explicitmode := true } else s.synced (.whole : Via oramSize) blinds

variable (tio : MPCTIO 1) (s : WideState F) (via : Via oramSize) (idx : Player → U)

/-- `A[idx]` as a value: one key, which every field is read with. -/
def read (coins : WideCoins F) : Option ((∀ f, Player → F f) × WideState F) := do
  let ox ← OblivIndex.create tio coins.keys idx via.shape.addrSize
  let s := s.synced via coins.blinds
  let res f := (MemRefS.read tio.prg tio.nthreads tio.serverThreads via.shape ox (fun _ _ => 0) (coins.rho f)
    (s.mem f, false)).1
  some (res, s)

/-- The coroutine of `T::update` for a field. -/
def updateCoro (M : ∀ f, Player → F f) (coins : ∀ f, AccessCoins (F f)) (mem : ∀ f, Duoram (F f)) (f : ι) :
    Option (∀ f, Duoram (F f)) := do
  let (m, _) ← via.shape.updateAt tio idx (M f) (coins f) (mem f, false)
  some (Function.update mem f m)

/-- `A[idx] += M`, which is `T::update`.  The coroutines work on contexts of the shape, each of which leaves
explicit-only mode for itself; they are in step, so that all do it before the first of the updates, and the blinds
that are drawn last stand.  The shape itself stays in its mode. -/
def update [Fields ι] (M : ∀ f, Player → F f) (blinds : Player → Nat → Wide F) (coins : ∀ f, AccessCoins (F f)) :
    Option (WideState F) := do
  let mem ← (Fields.all : List ι).foldlM (updateCoro tio via idx M coins) (s.synced via blinds).mem
  some ⟨mem, s.explicitmode⟩

/-- `A[idx] = M`: `oldval = *this`, and `*this += M - oldval`. -/
def write [Fields ι] (M : ∀ f, Player → F f) (old : WideCoins F) (coins : ∀ f, AccessCoins (F f)) :
    Option (WideState F) := do
  let (oldval, s) ← read tio s via idx old
  update tio s via idx (fun f p => M f p - oldval f p) old.blinds coins

/-- `A[idx].field(f)` as a value. -/
def readField (f : ι) (coins : WideCoins F) : Option ((Player → F f) × WideState F) := do
  let s := s.synced via coins.blinds
  let (res, _) ← via.shape.readAt tio idx (coins.field f) (s.mem f, false)
  some (res, s)

/-- `A[idx].field(f) += M`. -/
def updateField (f : ι) (M : Player → F f) (coins : WideCoins F) : Option (WideState F) := do
  let s := s.synced via coins.blinds
  let (mem, _) ← via.shape.updateAt tio idx M (coins.field f) (s.mem f, false)
  some (s.setField f mem)

/-- `A[idx].field(f) = M`. -/
def writeField (f : ι) (M : Player → F f) (coins : WideCoins F) : Option (WideState F) := do
  let s := s.synced via coins.blinds
  let (mem, _) ← via.shape.writeAt tio idx M (coins.field f) (s.mem f, false)
  some (s.setField f mem)

end WideState

/-! ## The array in the clear -/

/-- An array of structures, and whether accesses through the whole-memory shape are in explicit-only mode. -/
structure WideArray (F : ι → Type) where
  entries : Nat → Wide F
  explicitmode : Bool

/-- An operation on the array, on a whole entry or on a field, at an index that is secret or not. -/
inductive WideOp (F : ι → Type) (oramSize : Nat) where
  | init (via : Via oramSize) (c : Nat → Wide F)
  | explicitonly (enable : Bool)
  | read (via : Via oramSize) (secret : Bool) (idx : Nat)
  | add (via : Via oramSize) (secret : Bool) (idx : Nat) (M : Wide F)
  | write (via : Via oramSize) (secret : Bool) (idx : Nat) (M : Wide F)
  | readField (f : ι) (via : Via oramSize) (secret : Bool) (idx : Nat)
  | addField (f : ι) (via : Via oramSize) (secret : Bool) (idx : Nat) (M : F f)
  | writeField (f : ι) (via : Via oramSize) (secret : Bool) (idx : Nat) (M : F f)

/-- What an operation returns. -/
inductive WideOut (F : ι → Type) where
  | nothing
  | cell (c : Wide F)
  | field (f : ι) (v : F f)

namespace WideArray

/-- A new array. -/
def create : WideArray F := ⟨fun _ _ => 0, false⟩

/-- One field of the entries. -/
def field (a : WideArray F) (f : ι) : PlainArray (F f) := ⟨fun addr => a.entries addr f, a.explicitmode⟩

/-- Whether explicit-only mode lasts beyond an access.  `T::update` leaves it on contexts of the shape only. -/
def modeAfter (a : WideArray F) (via : Via oramSize) (secret : Bool) : Bool :=
  match via with
  | .whole => a.explicitmode && !secret
  | .sub _ => a.explicitmode

/-- The entry at an index, and 0 beyond the shape. -/
def lookup (a : WideArray F) (A : Shape oramSize) (idx : Nat) : Wide F := fun f => (a.field f).lookup A idx

/-- The entries with the one at an index replaced. -/
def replace (a : WideArray F) (A : Shape oramSize) (idx : Nat) (c : Wide F) : Nat → Wide F :=
  fun addr f => (a.field f).replace A idx (c f) addr

/-- The entries with a field of the one at an index replaced. -/
def replaceField (a : WideArray F) (f : ι) (A : Shape oramSize) (idx : Nat) (v : F f) : Nat → Wide F :=
  fun addr => Function.update (a.entries addr) f ((a.field f).replace A idx v addr)

/-- One operation, and what it returns. -/
def step (a : WideArray F) : WideOp F oramSize → WideArray F × WideOut F
  | .init via c =>
    (⟨fun addr f => forRange 0 via.shape.size (fun i entries => via.shape.store entries i (c i f))
      (fun addr => a.entries addr f) addr, a.explicitmode⟩, .nothing)
  | .explicitonly enable => (⟨a.entries, enable⟩, .nothing)
  | .read via secret idx => (⟨a.entries, a.modeAfter via secret⟩, .cell (a.lookup via.shape idx))
  | .add via _ idx M =>
    (⟨a.replace via.shape idx (fun f => a.lookup via.shape idx f + M f), a.explicitmode⟩, .nothing)
  | .write via secret idx M => (⟨a.replace via.shape idx M, a.modeAfter via secret⟩, .nothing)
  | .readField f via secret idx =>
    (⟨a.entries, a.modeAfter via secret⟩, .field f (a.lookup via.shape idx f))
  | .addField f via secret idx M =>
    (⟨a.replaceField f via.shape idx (a.lookup via.shape idx f + M), a.modeAfter via secret⟩, .nothing)
  | .writeField f via secret idx M =>
    (⟨a.replaceField f via.shape idx M, a.modeAfter via secret⟩, .nothing)

end WideArray

omit [DecidableEq ι] [∀ f, Register (F f)] in
theorem WideArray.modeAfter_public (a : WideArray F) (via : Via oramSize) :
    a.modeAfter via false = a.explicitmode := by
  cases via with
  | whole => exact Bool.and_true _
  | sub shape => rfl

/-- The contexts of the shape reach the cells that the shape does (`context_preserves_iff`). -/
def Shape.KeepsContext (A : Shape oramSize) : Prop := ∀ start len, A = .flat start len → start = 0

/-- The operations that the code supports.  A wide cell has no `set`, so that no `Pad` is among the shapes; a
secret entry is not read through one shape while another is in explicit-only mode. -/
def WideOp.Legal (explicitmode : Bool) : WideOp F oramSize → Prop
  | .init via _ => via.shape.PadFree
  | .explicitonly _ => True
  | .read via secret idx => via.shape.PadFree ∧ via.Reaches secret idx ∧ (secret = true → via.Synced explicitmode)
  | .add via secret idx _ =>
    via.shape.PadFree ∧ via.Reaches secret idx ∧ (secret = true → via.shape.KeepsContext)
  | .write via secret idx _ =>
    via.shape.PadFree ∧ via.Reaches secret idx ∧
      (secret = true → via.Synced explicitmode ∧ via.shape.KeepsContext)
  | .readField _ via secret idx =>
    via.shape.PadFree ∧ via.Reaches secret idx ∧ (secret = true → via.Synced explicitmode)
  | .addField _ via secret idx _ => via.shape.PadFree ∧ via.Reaches secret idx
  | .writeField _ via secret idx _ =>
    via.shape.PadFree ∧ via.Reaches secret idx ∧ (secret = true → via.Synced explicitmode)

/-- The array as a machine that takes legal operations. -/
def WideArray.machine (F : ι → Type) [∀ f, Register (F f)] (oramSize : Nat) :
    Machine (WideArray F) (WideOp F oramSize) (WideOut F) :=
  ofStepOn (fun a op => op.Legal a.explicitmode) WideArray.step

/-! ## The accesses -/

/-- An access, with what the parties draw for it. -/
inductive WideAccess (F : ι → Type) (oramSize : Nat) where
  | init (via : Via oramSize) (c : Nat → Wide F)
  | explicitonly (enable : Bool) (blinds : Player → Nat → Wide F)
  | explRead (via : Via oramSize) (idx : Nat)
  | explUpdate (via : Via oramSize) (idx : Nat) (M blind : ∀ f, Player → F f)
  | explWrite (via : Via oramSize) (idx : Nat) (M blind : ∀ f, Player → F f)
  | explReadField (f : ι) (via : Via oramSize) (idx : Nat)
  | explUpdateField (f : ι) (via : Via oramSize) (idx : Nat) (M blind : Player → F f)
  | explWriteField (f : ι) (via : Via oramSize) (idx : Nat) (M blind : Player → F f)
  | oblivRead (via : Via oramSize) (idx : SecretIndex) (coins : WideCoins F)
  | oblivUpdate (via : Via oramSize) (idx : SecretIndex) (M : ∀ f, Player → F f) (blinds : Player → Nat → Wide F)
      (coins : ∀ f, AccessCoins (F f))
  | oblivWrite (via : Via oramSize) (idx : SecretIndex) (M : ∀ f, Player → F f) (old : WideCoins F)
      (coins : ∀ f, AccessCoins (F f))
  | oblivReadField (f : ι) (via : Via oramSize) (idx : SecretIndex) (coins : WideCoins F)
  | oblivUpdateField (f : ι) (via : Via oramSize) (idx : SecretIndex) (M : Player → F f) (coins : WideCoins F)
  | oblivWriteField (f : ι) (via : Via oramSize) (idx : SecretIndex) (M : Player → F f) (coins : WideCoins F)

/-- The shares that an access returns. -/
abbrev WideShares (F : ι → Type) := WideOut fun f => Player → F f

/-- The values that shares stand for. -/
def WideOut.opened : WideShares F → WideOut F
  | .nothing => .nothing
  | .cell c => .cell fun f => c f .p0 + c f .p1
  | .field f v => .field f (v .p0 + v .p1)

/-- An access at an additively or XOR shared index. -/
def SecretIndex.access {α : Type} (onAs : (Player → RegAS) → α) (onXs : (Player → RegXS) → α) : SecretIndex → α
  | as idx => onAs idx
  | xs idx => onXs idx

/-- One access, with the shares that it returns. -/
def WideState.access [Fields ι] (tio : MPCTIO 1) (s : WideState F) :
    WideAccess F oramSize → Option (WideState F × WideShares F)
  | .init via c => some (s.init via c, .nothing)
  | .explicitonly enable blinds => some (s.explicitonly oramSize enable blinds, .nothing)
  | .explRead via idx => some (s, .cell (s.explRead via idx))
  | .explUpdate via idx M blind => some (s.explUpdate via idx M blind, .nothing)
  | .explWrite via idx M blind => some (s.explWrite via idx M blind, .nothing)
  | .explReadField f via idx => some (s, .field f (s.explReadField f via idx))
  | .explUpdateField f via idx M blind => some (s.explUpdateField f via idx M blind, .nothing)
  | .explWriteField f via idx M blind => some (s.explWriteField f via idx M blind, .nothing)
  | .oblivRead via idx coins =>
    (idx.access (fun idx => read tio s via idx coins) fun idx => read tio s via idx coins).map
      fun (res, s) => (s, .cell res)
  | .oblivUpdate via idx M blinds coins =>
    (idx.access (fun idx => update tio s via idx M blinds coins) fun idx => update tio s via idx M blinds coins).map
      fun s => (s, .nothing)
  | .oblivWrite via idx M old coins =>
    (idx.access (fun idx => write tio s via idx M old coins) fun idx => write tio s via idx M old coins).map
      fun s => (s, .nothing)
  | .oblivReadField f via idx coins =>
    (idx.access (fun idx => readField tio s via idx f coins) fun idx => readField tio s via idx f coins).map
      fun (res, s) => (s, .field f res)
  | .oblivUpdateField f via idx M coins =>
    (idx.access (fun idx => updateField tio s via idx f M coins) fun idx => updateField tio s via idx f M coins).map
      fun s => (s, .nothing)
  | .oblivWriteField f via idx M coins =>
    (idx.access (fun idx => writeField tio s via idx f M coins) fun idx => writeField tio s via idx f M coins).map
      fun s => (s, .nothing)

/-- The operation on the array that an access is. -/
def WideAccess.op : WideAccess F oramSize → WideOp F oramSize
  | .init via c => .init via c
  | .explicitonly enable _ => .explicitonly enable
  | .explRead via idx => .read via false idx
  | .explUpdate via idx M _ => .add via false idx fun f => M f .p0 + M f .p1
  | .explWrite via idx M _ => .write via false idx fun f => M f .p0 + M f .p1
  | .explReadField f via idx => .readField f via false idx
  | .explUpdateField f via idx M _ => .addField f via false idx (M .p0 + M .p1)
  | .explWriteField f via idx M _ => .writeField f via false idx (M .p0 + M .p1)
  | .oblivRead via idx _ => .read via true (idx.value via.shape)
  | .oblivUpdate via idx M _ _ => .add via true (idx.value via.shape) fun f => M f .p0 + M f .p1
  | .oblivWrite via idx M _ _ => .write via true (idx.value via.shape) fun f => M f .p0 + M f .p1
  | .oblivReadField f via idx _ => .readField f via true (idx.value via.shape)
  | .oblivUpdateField f via idx M _ => .addField f via true (idx.value via.shape) (M .p0 + M .p1)
  | .oblivWriteField f via idx M _ => .writeField f via true (idx.value via.shape) (M .p0 + M .p1)

/-! ## One field -/

section Field

variable {T : Type} [Register T] {s : DuoramState T} {a : PlainArray T} {A : Shape oramSize}

/-- Outside explicit-only mode an oblivious read returns shares of the entry. -/
theorem DuoramState.Holds.readAt [Targeted U] [Updatable T 1] (h : s.Holds oramSize a) (hA : A.Oblivious)
    (hmem : s.mem.Consistent oramSize) (tio : MPCTIO 1) (idx : Player → U) (coins : AccessCoins T) :
    ∃ res, A.readAt tio idx coins (s.mem, false) = some (res, (s.mem, false)) ∧
      res .p0 + res .p1 = a.lookup A (A.secretIndex idx) := by
  obtain ⟨res, hrun, hres⟩ := hA.readAt tio idx coins hmem
  exact ⟨res, hrun, hres.trans (PlainArray.lookup_eq h.entries _).symm⟩

/-- An oblivious update adds to the entry. -/
theorem DuoramState.Holds.updateAt [Targeted U] [Updatable T 1] (h : s.Holds oramSize a) (hA : A.Oblivious)
    (hpad : A.PadFree) (tio : MPCTIO 1) (idx : Player → U) (M : Player → T) (coins : AccessCoins T) :
    ∃ mem, A.updateAt tio idx M coins (s.mem, false) = some (mem, false) ∧
      (⟨mem, s.explicitmode⟩ : DuoramState T).Holds oramSize
        ⟨a.replace A (A.secretIndex idx) (a.lookup A (A.secretIndex idx) + (M .p0 + M .p1)), a.explicitmode⟩ := by
  obtain ⟨mem, hrun, hspec⟩ := hA.updateAt tio idx M coins s.mem
  refine ⟨mem, hrun, fun addr => ?_, h.mode, fun hmode addr haddr => (hspec addr).1 (h.inv hmode addr haddr)⟩
  dsimp only
  rw [PlainArray.replace_add_eq hpad, (hspec addr).2, h.entries]

/-- An oblivious write replaces the entry. -/
theorem DuoramState.Holds.writeAt [Targeted U] [Updatable T 1] (h : s.Holds oramSize a) (hA : A.Oblivious)
    (hpad : A.PadFree) (hmem : s.mem.Consistent oramSize) (tio : MPCTIO 1) (idx : Player → U) (M : Player → T)
    (coins : AccessCoins T) :
    ∃ mem, A.writeAt tio idx M coins (s.mem, false) = some (mem, false) ∧
      (⟨mem, s.explicitmode⟩ : DuoramState T).Holds oramSize
        ⟨a.replace A (A.secretIndex idx) (M .p0 + M .p1), a.explicitmode⟩ := by
  obtain ⟨mem, hrun, hspec⟩ := hA.writeAt tio idx M coins hmem
  refine ⟨mem, hrun, fun addr => ?_, h.mode, fun hmode addr haddr => (hspec addr).1 (h.inv hmode addr haddr)⟩
  dsimp only
  rw [PlainArray.replace_eq hpad, (hspec addr).2, h.entries]

/-- An explicit update adds to the entry. -/
theorem DuoramState.Holds.explUpdate (h : s.Holds oramSize a) (via : Via oramSize) (hpad : via.shape.PadFree)
    {idx : Nat} (hidx : idx < via.shape.size) (M blind : Player → T) :
    (⟨MemRefExpl.update via.shape (s.mode via) idx M blind s.mem, s.explicitmode⟩ : DuoramState T).Holds oramSize
      ⟨a.replace via.shape idx (a.lookup via.shape idx + (M .p0 + M .p1)), a.explicitmode⟩ where
  entries addr := by
    simp only [PlainArray.replace_add_eq hpad, hidx, true_and]
    rw [MemRefExpl.update_reconstruct, h.entries]
  mode := h.mode
  inv hmode addr haddr := by
    simp only [h.mode_off hmode via]
    exact MemRefExpl.update_consistentAt _ idx M blind (h.inv hmode addr haddr)

/-- An explicit write replaces the entry. -/
theorem DuoramState.Holds.explWrite (h : s.Holds oramSize a) (via : Via oramSize) (hpad : via.shape.PadFree)
    {idx : Nat} (hidx : idx < via.shape.size) (M blind : Player → T) :
    (⟨MemRefExpl.write via.shape (s.mode via) idx M blind s.mem, s.explicitmode⟩ : DuoramState T).Holds oramSize
      ⟨a.replace via.shape idx (M .p0 + M .p1), a.explicitmode⟩ where
  entries addr := by
    simp only [PlainArray.replace_eq hpad, hidx, true_and]
    rw [MemRefExpl.write_reconstruct, h.entries]
  mode := h.mode
  inv hmode addr haddr := by
    simp only [h.mode_off hmode via]
    exact MemRefExpl.update_consistentAt _ idx _ blind (h.inv hmode addr haddr)

/-- An explicit read returns shares of the entry. -/
theorem DuoramState.Holds.explRead (h : s.Holds oramSize a) {idx : Nat} (hidx : idx < A.size) :
    MemRefExpl.read A idx s.mem .p0 + MemRefExpl.read A idx s.mem .p1 = a.lookup A idx := by
  rw [PlainArray.lookup_eq h.entries, if_pos hidx]
  rfl

end Field

/-! ## All fields -/

/-- The shares stand for the entries, and the blinds agree with them outside explicit-only mode. -/
structure WideState.Holds (oramSize : Nat) (s : WideState F) (a : WideArray F) : Prop where
  fields : ∀ f, (s.field f).Holds oramSize (a.field f)
  mode : s.explicitmode = a.explicitmode

namespace WideState

omit [DecidableEq ι] in
theorem field_synced (s : WideState F) (via : Via oramSize) (blinds : Player → Nat → Wide F) (f : ι) :
    (s.synced via blinds).field f = (s.field f).synced via fun p i => blinds p i f := by
  cases via with
  | whole =>
      simp only [field, synced, DuoramState.synced, DuoramState.after, explicitonly_mode]
  | sub shape => rfl

namespace Holds

variable {s : WideState F} {a : WideArray F} {via : Via oramSize}

omit [DecidableEq ι] in
theorem create : (WideState.create : WideState F).Holds oramSize WideArray.create where
  fields _ := DuoramState.Holds.create
  mode := rfl

omit [DecidableEq ι] in
/-- Leaving explicit-only mode changes nothing behind the shares. -/
theorem synced (h : s.Holds oramSize a) (via : Via oramSize) (blinds : Player → Nat → Wide F) :
    (s.synced via blinds).Holds oramSize ⟨a.entries, a.modeAfter via true⟩ where
  fields f := by
    rw [field_synced]
    exact (h.fields f).synced via _
  mode := by
    cases via with
    | whole => exact (Bool.and_false _).symm
    | sub shape => exact h.mode

omit [DecidableEq ι] in
theorem synced_consistent (h : s.Holds oramSize a) (hvia : via.Synced a.explicitmode)
    (blinds : Player → Nat → Wide F) (f : ι) : ((s.synced via blinds).mem f).Consistent oramSize :=
  (h.fields f).synced_consistent hvia _

/-- One field replaced. -/
theorem setField (h : s.Holds oramSize a) {f : ι} {A : Shape oramSize} {idx : Nat} {v : F f} {mem : Duoram (F f)}
    (hmem : (⟨mem, s.explicitmode⟩ : DuoramState (F f)).Holds oramSize
      ⟨(a.field f).replace A idx v, a.explicitmode⟩) :
    (s.setField f mem).Holds oramSize ⟨a.replaceField f A idx v, a.explicitmode⟩ where
  fields g := by
    rcases eq_or_ne g f with rfl | hne
    · simp only [field, WideState.setField, WideArray.field, WideArray.replaceField, Function.update_self]
      exact hmem
    · simp only [field, WideState.setField, WideArray.field, WideArray.replaceField, Function.update_of_ne hne]
      exact h.fields g
  mode := h.mode

variable [Targeted U] [∀ f, Updatable (F f) 1] (tio : MPCTIO 1) (idx : Player → U)

omit [DecidableEq ι] in
/-- A read of a whole cell returns shares of the entry. -/
theorem read (h : s.Holds oramSize a) (hA : via.shape.Oblivious) (hvia : via.Synced a.explicitmode)
    (coins : WideCoins F) :
    ∃ res, WideState.read tio s via idx coins = some (res, s.synced via coins.blinds) ∧
      ∀ f, res f .p0 + res f .p1 = a.lookup via.shape (via.shape.secretIndex idx) f := by
  obtain ⟨ox, hox, -⟩ := OblivIndex.exists_create RegXS tio coins.keys idx hA.addrSize_pos hA.addrSize_le
  refine ⟨_, by rw [WideState.read, hox]; rfl, fun f => ?_⟩
  obtain ⟨res, hrun, hres⟩ := ((h.synced via coins.blinds).fields f).readAt hA
    (h.synced_consistent hvia coins.blinds f) tio idx ⟨coins.keys, fun _ _ => 0, coins.rho f⟩
  rw [Shape.readAt, hox] at hrun
  obtain rfl : _ = res := congrArg Prod.fst (Option.some.inj hrun)
  exact hres

omit [DecidableEq ι] in
/-- A read of a field. -/
theorem readField (h : s.Holds oramSize a) (f : ι) (hA : via.shape.Oblivious) (hvia : via.Synced a.explicitmode)
    (coins : WideCoins F) :
    ∃ res, WideState.readField tio s via idx f coins = some (res, s.synced via coins.blinds) ∧
      res .p0 + res .p1 = a.lookup via.shape (via.shape.secretIndex idx) f := by
  obtain ⟨res, hrun, hres⟩ := ((h.synced via coins.blinds).fields f).readAt hA
    (h.synced_consistent hvia coins.blinds f) tio idx (coins.field f)
  refine ⟨res, ?_, hres⟩
  rw [WideState.readField]
  exact congrArg (· >>= _) hrun

/-- An update of a field. -/
theorem updateField (h : s.Holds oramSize a) (f : ι) (hA : via.shape.Oblivious) (hpad : via.shape.PadFree)
    (M : Player → F f) (coins : WideCoins F) :
    ∃ s', WideState.updateField tio s via idx f M coins = some s' ∧ s'.Holds oramSize
      (a.step (.addField f via true (via.shape.secretIndex idx) (M .p0 + M .p1))).1 := by
  have hsynced := h.synced via coins.blinds
  obtain ⟨mem, hrun, hmem⟩ := (hsynced.fields f).updateAt hA hpad tio idx M (coins.field f)
  refine ⟨_, ?_, hsynced.setField hmem⟩
  rw [WideState.updateField]
  exact congrArg (· >>= _) hrun

/-- A write of a field. -/
theorem writeField (h : s.Holds oramSize a) (f : ι) (hA : via.shape.Oblivious) (hpad : via.shape.PadFree)
    (hvia : via.Synced a.explicitmode) (M : Player → F f) (coins : WideCoins F) :
    ∃ s', WideState.writeField tio s via idx f M coins = some s' ∧ s'.Holds oramSize
      (a.step (.writeField f via true (via.shape.secretIndex idx) (M .p0 + M .p1))).1 := by
  have hsynced := h.synced via coins.blinds
  obtain ⟨mem, hrun, hmem⟩ :=
    (hsynced.fields f).writeAt hA hpad (h.synced_consistent hvia coins.blinds f) tio idx M
      (coins.field f)
  refine ⟨_, ?_, hsynced.setField hmem⟩
  rw [WideState.writeField]
  exact congrArg (· >>= _) hrun

/-- The coroutines of an update succeed, each on its own field. -/
theorem foldlM_updateCoro (hA : via.shape.Oblivious) (M : ∀ f, Player → F f) (coins : ∀ f, AccessCoins (F f))
    {fields : List ι} (hnodup : fields.Nodup) (mem : ∀ f, Duoram (F f)) :
    ∃ mem', fields.foldlM (updateCoro tio via idx M coins) mem = some mem' ∧ ∀ f,
      (f ∈ fields → via.shape.updateAt tio idx (M f) (coins f) (mem f, false) = some (mem' f, false)) ∧
        (f ∉ fields → mem' f = mem f) := by
  induction fields generalizing mem with
  | nil => exact ⟨mem, rfl, fun f => ⟨fun hf => absurd hf List.not_mem_nil, fun _ => rfl⟩⟩
  | cons g fields ih =>
      obtain ⟨hg, hfields⟩ := List.nodup_cons.mp hnodup
      obtain ⟨m, hrun, -⟩ := hA.updateAt tio idx (M g) (coins g) (mem g)
      obtain ⟨mem', hrest, hmem'⟩ := ih hfields (Function.update mem g m)
      refine ⟨mem', ?_, fun f => ?_⟩
      · rw [List.foldlM_cons, updateCoro, hrun]
        exact hrest
      · rcases eq_or_ne f g with rfl | hne
        · have hkept : mem' f = m := ((hmem' f).2 hg).trans (Function.update_self ..)
          rw [hrun, hkept]
          exact ⟨fun _ => rfl, fun hf => absurd List.mem_cons_self hf⟩
        · obtain ⟨hin, hout⟩ := hmem' f
          rw [Function.update_of_ne hne] at hin hout
          exact ⟨fun hf => hin ((List.mem_cons.mp hf).resolve_left hne),
            fun hf => hout fun hmem => hf (List.mem_cons_of_mem g hmem)⟩

/-- An update of a whole cell. -/
theorem update [Fields ι] (h : s.Holds oramSize a) (hA : via.shape.Oblivious) (hpad : via.shape.PadFree)
    (M : ∀ f, Player → F f) (blinds : Player → Nat → Wide F) (coins : ∀ f, AccessCoins (F f)) :
    ∃ s', WideState.update tio s via idx M blinds coins = some s' ∧ s'.Holds oramSize
      (a.step (.add via true (via.shape.secretIndex idx) fun f => M f .p0 + M f .p1)).1 := by
  have hsynced := h.synced via blinds
  obtain ⟨mem, hrun, hmem⟩ := foldlM_updateCoro tio idx hA M coins Fields.nodup (s.synced via blinds).mem
  refine ⟨⟨mem, s.explicitmode⟩, ?_, fun f => ?_, h.mode⟩
  · rw [WideState.update, hrun]
    rfl
  · obtain ⟨m, hupdate, hm⟩ := (hsynced.fields f).updateAt hA hpad tio idx (M f) (coins f)
    obtain rfl : mem f = m :=
      congrArg Prod.fst (Option.some.inj (((hmem f).1 (Fields.mem_all f)).symm.trans hupdate))
    refine ⟨hm.entries, h.mode, fun hmode => hm.inv ?_⟩
    -- outside explicit-only mode the contexts are not in it either
    cases via with
    | whole => rfl
    | sub shape => exact hmode

/-- A write of a whole cell. -/
theorem write [Fields ι] (h : s.Holds oramSize a) (hA : via.shape.Oblivious) (hpad : via.shape.PadFree)
    (hvia : via.Synced a.explicitmode) (M : ∀ f, Player → F f) (old : WideCoins F)
    (coins : ∀ f, AccessCoins (F f)) :
    ∃ s', WideState.write tio s via idx M old coins = some s' ∧ s'.Holds oramSize
      (a.step (.write via true (via.shape.secretIndex idx) fun f => M f .p0 + M f .p1)).1 := by
  obtain ⟨oldval, hread, hold⟩ := h.read tio idx hA hvia old
  obtain ⟨s', hrun, hs'⟩ := (h.synced via old.blinds).update tio idx hA hpad (fun f p => M f p - oldval f p)
    old.blinds coins
  refine ⟨s', ?_, ?_⟩
  · rw [WideState.write, hread]
    exact hrun
  · have hsum f : a.lookup via.shape (via.shape.secretIndex idx) f +
        (M f .p0 - oldval f .p0 + (M f .p1 - oldval f .p1)) = M f .p0 + M f .p1 := by
      rw [sub_add_sub_comm, hold, add_sub_cancel]
    have hstep : (WideArray.step ⟨a.entries, a.modeAfter via true⟩
        (.add via true (via.shape.secretIndex idx) fun f => M f .p0 - oldval f .p0 + (M f .p1 - oldval f .p1))).1 =
        (a.step (.write via true (via.shape.secretIndex idx) fun f => M f .p0 + M f .p1)).1 := by
      rw [← funext hsum]
      rfl
    rwa [hstep] at hs'

end Holds

/-- A legal access succeeds, does to the shares what the operation does to the array, and returns shares of
what the operation returns. -/
theorem Holds.access_spec [Fields ι] [∀ f, Updatable (F f) 1] (tio : MPCTIO 1) {s : WideState F} {a : WideArray F}
    (h : s.Holds oramSize a) {access : WideAccess F oramSize} (hlegal : access.op.Legal a.explicitmode) :
    ∃ s' out, s.access tio access = some (s', out) ∧ s'.Holds oramSize (a.step access.op).1 ∧
      out.opened = (a.step access.op).2 := by
  cases access with
  | init via c =>
      refine ⟨_, _, rfl, ⟨fun f => ⟨fun addr => ?_, h.mode, fun hmode addr haddr => ?_⟩, h.mode⟩, rfl⟩
      · have hentries : (s.mem f).reconstruct = (a.field f).entries := funext (h.fields f).entries
        rw [field, init, Shape.PadFree.init_reconstruct hlegal, hentries]
        rfl
      · exact via.shape.init_consistentAt _ ((h.fields f).inv hmode addr haddr)
  | explicitonly enable blinds =>
      cases enable with
      | true =>
          refine ⟨_, _, rfl, ⟨fun f => ⟨(h.fields f).entries, rfl, fun hmode => Bool.noConfusion hmode⟩, rfl⟩, rfl⟩
      | false =>
          refine ⟨_, _, rfl, ?_, rfl⟩
          have hsynced := h.synced (.whole : Via oramSize) blinds
          rwa [WideArray.modeAfter, Bool.not_true, Bool.and_false] at hsynced
  | explRead via idx =>
      obtain ⟨-, hidx, -⟩ := hlegal
      refine ⟨s, _, rfl, ?_, congrArg WideOut.cell (funext fun f => (h.fields f).explRead hidx)⟩
      simpa only [WideAccess.op, WideArray.step, WideArray.modeAfter_public] using h
  | explUpdate via idx M blind =>
      obtain ⟨hpad, hidx, -⟩ := hlegal
      exact ⟨_, _, rfl, ⟨fun f => (h.fields f).explUpdate via hpad hidx (M f) (blind f), h.mode⟩, rfl⟩
  | explWrite via idx M blind =>
      obtain ⟨hpad, hidx, -⟩ := hlegal
      refine ⟨_, _, rfl, ?_, rfl⟩
      simp only [WideAccess.op, WideArray.step, WideArray.modeAfter_public]
      exact ⟨fun f => (h.fields f).explWrite via hpad hidx (M f) (blind f), h.mode⟩
  | explReadField f via idx =>
      obtain ⟨-, hidx, -⟩ := hlegal
      refine ⟨s, _, rfl, ?_, congrArg (WideOut.field f) ((h.fields f).explRead hidx)⟩
      simpa only [WideAccess.op, WideArray.step, WideArray.modeAfter_public] using h
  | explUpdateField f via idx M blind =>
      obtain ⟨hpad, hidx⟩ := hlegal
      refine ⟨_, _, rfl, ?_, rfl⟩
      simp only [WideAccess.op, WideArray.step, WideArray.modeAfter_public]
      exact h.setField ((h.fields f).explUpdate via hpad hidx M blind)
  | explWriteField f via idx M blind =>
      obtain ⟨hpad, hidx, -⟩ := hlegal
      refine ⟨_, _, rfl, ?_, rfl⟩
      simp only [WideAccess.op, WideArray.step, WideArray.modeAfter_public]
      exact h.setField ((h.fields f).explWrite via hpad hidx M blind)
  | oblivRead via idx coins =>
      obtain ⟨-, hA, hvia⟩ := hlegal
      cases idx with
      | as idx | xs idx =>
          obtain ⟨res, hrun, hres⟩ := h.read tio idx hA (hvia rfl) coins
          exact ⟨_, _, congrArg (Option.map _) hrun, h.synced via coins.blinds,
            congrArg WideOut.cell (funext hres)⟩
  | oblivUpdate via idx M blinds coins =>
      obtain ⟨hpad, hA, -⟩ := hlegal
      cases idx with
      | as idx | xs idx =>
          obtain ⟨s', hrun, hs'⟩ := h.update tio idx hA hpad M blinds coins
          exact ⟨s', _, congrArg (Option.map _) hrun, hs', rfl⟩
  | oblivWrite via idx M old coins =>
      obtain ⟨hpad, hA, hvia⟩ := hlegal
      cases idx with
      | as idx | xs idx =>
          obtain ⟨s', hrun, hs'⟩ := h.write tio idx hA hpad (hvia rfl).1 M old coins
          exact ⟨s', _, congrArg (Option.map _) hrun, hs', rfl⟩
  | oblivReadField f via idx coins =>
      obtain ⟨-, hA, hvia⟩ := hlegal
      cases idx with
      | as idx | xs idx =>
          obtain ⟨res, hrun, hres⟩ := h.readField tio idx f hA (hvia rfl) coins
          exact ⟨_, _, congrArg (Option.map _) hrun, h.synced via coins.blinds, congrArg (WideOut.field f) hres⟩
  | oblivUpdateField f via idx M coins =>
      obtain ⟨hpad, hA⟩ := hlegal
      cases idx with
      | as idx | xs idx =>
          obtain ⟨s', hrun, hs'⟩ := h.updateField tio idx f hA hpad M coins
          exact ⟨s', _, congrArg (Option.map _) hrun, hs', rfl⟩
  | oblivWriteField f via idx M coins =>
      obtain ⟨hpad, hA, hvia⟩ := hlegal
      cases idx with
      | as idx | xs idx =>
          obtain ⟨s', hrun, hs'⟩ := h.writeField tio idx f hA hpad (hvia rfl) M coins
          exact ⟨s', _, congrArg (Option.map _) hrun, hs', rfl⟩

/-- Every legal operation on the array is simulated by the access. -/
theorem simulates_array [Fields ι] [∀ f, Updatable (F f) 1] (tio : MPCTIO 1) :
    Simulates (Holds oramSize) WideAccess.op WideOut.opened (ofStep (access tio))
      (WideArray.machine F oramSize) := by
  rintro s a acc a' out hs ⟨hlegal, hstep⟩
  obtain ⟨s', shares, hrun, hs', hout⟩ := hs.access_spec tio hlegal
  rw [hstep] at hs' hout
  exact ⟨s', shares, hrun, hs', hout⟩

end WideState

/-- **A Duoram of wide cells is an array of structures.**  Any sequence of initializations and of explicit and
oblivious reads, updates and writes of whole cells and of single fields, through the whole memory or through other
shapes, with explicit-only mode switched on and off, succeeds from a new Duoram, whatever the parties draw.  The
shares that it returns stand for what the array in the clear returns, and the memory that it leaves for what the
array holds. -/
theorem wide_duoram_refines_array [Fields ι] [∀ f, Updatable (F f) 1] (tio : MPCTIO 1)
    (accesses : List (WideAccess F oramSize))
    (hlegal : Throughout (fun (a : WideArray F) op => op.Legal a.explicitmode) WideArray.step .create
      (accesses.map WideAccess.op)) :
    ∃ s outs, run (WideState.access tio) WideState.create accesses = some (s, outs) ∧
      outs.map WideOut.opened = (exec WideArray.step .create (accesses.map WideAccess.op)).2 ∧
      ∀ addr f, (s.mem f).reconstruct addr =
        (exec WideArray.step .create (accesses.map WideAccess.op)).1.entries addr f := by
  obtain ⟨s, outs, hrun, hs, houts⟩ := (WideState.simulates_array tio).run WideState.Holds.create hlegal.run
  exact ⟨s, outs, run_iff.mpr hrun, houts, fun addr f => (hs.fields f).entries addr⟩

/-! ## Nodes -/

/-- The fields of a `Node`, and of a `Cell`. -/
inductive NodeField where
  | key
  | pointers
  | value
  deriving DecidableEq

namespace NodeField

/-- The registers of the fields. -/
abbrev Reg : NodeField → Type
  | key => RegAS
  | pointers => RegXS
  | value => RegXS

instance instRegister : ∀ f : NodeField, Register f.Reg
  | key => inferInstanceAs (Register RegAS)
  | pointers => inferInstanceAs (Register RegXS)
  | value => inferInstanceAs (Register RegXS)

instance instUpdatable : ∀ f : NodeField, Updatable f.Reg 1
  | key => inferInstanceAs (Updatable RegAS 1)
  | pointers => inferInstanceAs (Updatable RegXS 1)
  | value => inferInstanceAs (Updatable RegXS 1)

instance instFields : Fields NodeField where
  all := [key, pointers, value]
  nodup := by decide
  mem_all f := by cases f <;> decide

/-- A node of three registers. -/
def node (key : RegAS) (pointers value : RegXS) : Wide Reg
  | .key => key
  | .pointers => pointers
  | .value => value

/-- Shares of a node: P0 holds its registers. -/
def shares (c : Wide Reg) (f : NodeField) (p : Player) : f.Reg := if p.bit then 0 else c f

end NodeField

/-- On four nodes: an explicit write of node 0, an oblivious update of node 2 in explicit-only mode, a write of the
value of node 0, and reads of both. -/
theorem wide_duoram_refines_array_four :
    let tio : MPCTIO 1 := ⟨⟨fun _ _ => 0, fun _ _ => 0⟩, fun _ => 1, 1⟩
    let keys : TripleCoins 1 := ⟨fun _ => 5, fun _ _ => 3, default, fun _ => halftriple (fun _ => 7) 9⟩
    let coins : WideCoins NodeField.Reg := ⟨keys, fun _ _ => NodeField.node ⟨1⟩ ⟨6⟩ ⟨4⟩, NodeField.node ⟨2⟩ ⟨3⟩ ⟨8⟩⟩
    let at0 : SecretIndex := .xs fun _ => ⟨5⟩
    let at2 : SecretIndex := .as fun p => if p.bit then ⟨-3⟩ else ⟨5⟩
    ∃ s outs, run (WideState.access tio) WideState.create
        [.explWrite (.whole : Via 4) 0 (NodeField.shares (NodeField.node ⟨10⟩ ⟨20⟩ ⟨30⟩)) fun _ _ => 0,
          .explicitonly true fun _ _ => 0,
          .oblivUpdate .whole at2 (NodeField.shares (NodeField.node ⟨-1⟩ ⟨12⟩ ⟨13⟩)) coins.blinds coins.field,
          .oblivWriteField .value .whole at0 (fun p => if p.bit then ⟨8⟩ else ⟨1⟩) coins,
          .oblivRead .whole at2 coins, .oblivReadField .value .whole at0 coins] = some (s, outs) ∧
      outs.map WideOut.opened = [.nothing, .nothing, .nothing, .nothing, .cell (NodeField.node ⟨-1⟩ ⟨12⟩ ⟨13⟩),
        .field .value ⟨9⟩] := by
  intro tio keys coins at0 at2
  have hwhole : (Via.whole : Via 4).shape.Oblivious := ⟨trivial, by decide, by decide⟩
  have hkeeps : (Via.whole : Via 4).shape.KeepsContext := fun start len h => (Shape.flat.inj h).1.symm
  have hzero : 0 < (Via.whole : Via 4).shape.size := by decide
  obtain ⟨s, outs, hrun, houts, -⟩ := wide_duoram_refines_array tio
    [.explWrite (.whole : Via 4) 0 (NodeField.shares (NodeField.node ⟨10⟩ ⟨20⟩ ⟨30⟩)) fun _ _ => 0,
      .explicitonly true fun _ _ => 0,
      .oblivUpdate .whole at2 (NodeField.shares (NodeField.node ⟨-1⟩ ⟨12⟩ ⟨13⟩)) coins.blinds coins.field,
      .oblivWriteField .value .whole at0 (fun p => if p.bit then ⟨8⟩ else ⟨1⟩) coins,
      .oblivRead .whole at2 coins, .oblivReadField .value .whole at0 coins]
    ⟨⟨trivial, hzero, fun h => Bool.noConfusion h⟩, trivial, ⟨trivial, hwhole, fun _ => hkeeps⟩,
      ⟨trivial, hwhole, fun _ => trivial⟩, ⟨trivial, hwhole, fun _ => trivial⟩,
      ⟨trivial, hwhole, fun _ => trivial⟩, trivial⟩
  refine ⟨s, outs, hrun, houts.trans ?_⟩
  have hread {c : Wide NodeField.Reg} {v : NodeField.value.Reg} (hc : ∀ f, c f = NodeField.node ⟨-1⟩ ⟨12⟩ ⟨13⟩ f)
      (hv : v = ⟨9⟩) : [.nothing, .nothing, .nothing, .nothing, .cell c, .field .value v] =
        [.nothing, .nothing, .nothing, .nothing, .cell (NodeField.node ⟨-1⟩ ⟨12⟩ ⟨13⟩), WideOut.field .value ⟨9⟩] := by
    rw [funext hc, hv]
  exact hread (fun f => by cases f <;> decide) (by decide)

end Prac
