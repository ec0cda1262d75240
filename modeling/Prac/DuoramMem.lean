import Prac.Duoram

/-!
# Local and explicit operations on a Duoram

* `Duoram.Consistent` — the relation between the vectors of the three parties.
* `init_consistentAt`, `reblind_consistentAt`, `MemRefExpl.update_consistentAt` — initialization, the
  end of explicit-only mode and an explicit update establish or keep it at every address.
* `reblind_database`, `MemRefExpl.update_reconstruct` — what they do to the database.
-/

namespace Prac

open Loop

variable {T : Type} {oramSize : Nat}

/-! ## One address -/

/-- A computational party's entries at an address: database share, blind, peer's blinded share. -/
def CompDuoram.entry (m : CompDuoram T) (addr : Nat) : T × T × T :=
  (m.database addr, m.blind addr, m.peerBlindedDb addr)

/-- The server's entries at an address. -/
def ServerDuoram.entry (m : ServerDuoram T) (addr : Nat) : T × T := (m.p0Blind addr, m.p1Blind addr)

theorem Shape.modifyComp_entry (shape : Shape oramSize) (idx : Nat) (f : T × T × T → T × T × T)
    (m : CompDuoram T) (addr : Nat) :
    (shape.modifyComp idx f m).entry addr =
      if shape.cell idx = .mem addr then f (m.entry addr) else m.entry addr := by
  unfold Shape.modifyComp
  cases hcell : shape.cell idx with
  | mem a =>
      by_cases ha : a = addr
      · subst ha
        simp [CompDuoram.entry]
      · have hne : addr ≠ a := fun h => ha h.symm
        simp [CompDuoram.entry, ha, hne]
  | pad v => simp

theorem Shape.modifyServer_entry (shape : Shape oramSize) (idx : Nat) (f : T × T → T × T)
    (m : ServerDuoram T) (addr : Nat) :
    (shape.modifyServer idx f m).entry addr =
      if shape.cell idx = .mem addr then f (m.entry addr) else m.entry addr := by
  unfold Shape.modifyServer
  cases hcell : shape.cell idx with
  | mem a =>
      by_cases ha : a = addr
      · subst ha
        simp [ServerDuoram.entry]
      · have hne : addr ≠ a := fun h => ha h.symm
        simp [ServerDuoram.entry, ha, hne]
  | pad v => simp

theorem Shape.forRange_modifyComp_entry (shape : Shape oramSize) (f : Nat → T × T × T → T × T × T)
    (n : Nat) (m : CompDuoram T) (addr : Nat) :
    (forRange 0 n (fun i => shape.modifyComp i (f i)) m).entry addr =
      forRange 0 n (fun i v => if shape.cell i = .mem addr then f i v else v) (m.entry addr) := by
  refine forRange_rel (fun _ (m : CompDuoram T) v => m.entry addr = v) (Nat.zero_le n) rfl ?_
  rintro i m v - - rfl
  exact shape.modifyComp_entry i (f i) m addr

theorem Shape.forRange_modifyServer_entry (shape : Shape oramSize) (f : Nat → T × T → T × T)
    (n : Nat) (m : ServerDuoram T) (addr : Nat) :
    (forRange 0 n (fun i => shape.modifyServer i (f i)) m).entry addr =
      forRange 0 n (fun i v => if shape.cell i = .mem addr then f i v else v) (m.entry addr) := by
  refine forRange_rel (fun _ (m : ServerDuoram T) v => m.entry addr = v) (Nat.zero_le n) rfl ?_
  rintro i m v - - rfl
  exact shape.modifyServer_entry i (f i) m addr

/-! ## Consistent memories -/

variable [Register T]

/-- At an address, each player's peer-blinded copy is the peer's database share plus the peer's blind,
and the server's blinds are the players' blinds. -/
structure Duoram.ConsistentAt (mem : Duoram T) (addr : Nat) : Prop where
  peer : ∀ p, (mem.comp p).peerBlindedDb addr =
    (mem.comp p.peer).database addr + (mem.comp p.peer).blind addr
  p0Blind : mem.server.p0Blind addr = (mem.comp .p0).blind addr
  p1Blind : mem.server.p1Blind addr = (mem.comp .p1).blind addr

/-- The vectors of the three parties are consistent. -/
def Duoram.Consistent (oramSize : Nat) (mem : Duoram T) : Prop :=
  ∀ addr < oramSize, mem.ConsistentAt addr

/-- The database entry at an address. -/
def Duoram.reconstruct (mem : Duoram T) (addr : Nat) : T :=
  (mem.comp .p0).database addr + (mem.comp .p1).database addr

namespace Duoram

/-- Consistency at an address, on the entries of the three parties. -/
theorem consistentAt_iff {mem : Duoram T} {addr : Nat} :
    mem.ConsistentAt addr ↔
      (∀ p, ((mem.comp p).entry addr).2.2 =
        ((mem.comp p.peer).entry addr).1 + ((mem.comp p.peer).entry addr).2.1) ∧
      mem.server.entry addr =
        (((mem.comp .p0).entry addr).2.1, ((mem.comp .p1).entry addr).2.1) := by
  constructor
  · rintro ⟨hpeer, h0, h1⟩
    exact ⟨hpeer, Prod.ext h0 h1⟩
  · rintro ⟨hpeer, hserver⟩
    exact ⟨hpeer, congrArg Prod.fst hserver, congrArg Prod.snd hserver⟩

theorem reconstruct_eq_entry (mem : Duoram T) (addr : Nat) :
    mem.reconstruct addr = ((mem.comp .p0).entry addr).1 + ((mem.comp .p1).entry addr).1 := rfl

theorem create_consistent : (create : Duoram T).Consistent oramSize := by
  intro addr _
  exact ⟨fun _ => (add_zero (0 : T)).symm, rfl, rfl⟩

end Duoram

namespace Shape

variable (shape : Shape oramSize) {mem : Duoram T} {addr : Nat}

/-- Initialization keeps an address consistent. -/
theorem init_consistentAt (f : Nat → T) (h : mem.ConsistentAt addr) :
    (shape.init f mem).ConsistentAt addr := by
  rw [Duoram.consistentAt_iff] at h ⊢
  obtain ⟨last, -, -, hloop⟩ := forRange_overwrite (fun i => shape.cell i = .mem addr) shape.size
  have hcomp p : ((shape.init f mem).comp p).entry addr = last.elim ((mem.comp p).entry addr)
      fun i => if p.bit then (f i, 0, 0) else (0, 0, f i) := by
    refine (shape.forRange_modifyComp_entry _ _ _ _).trans ?_
    exact hloop (fun i _ => if p.bit then (f i, 0, 0) else (0, 0, f i)) (fun _ _ _ => rfl) _
  have hserver : (shape.init f mem).server.entry addr =
      last.elim (mem.server.entry addr) fun _ => (0, 0) :=
    (shape.forRange_modifyServer_entry _ _ _ _).trans (hloop (fun _ _ => (0, 0)) (fun _ _ _ => rfl) _)
  simp only [hcomp, hserver]
  cases last with
  | none => exact h
  | some i =>
      refine ⟨fun p => ?_, rfl⟩
      cases p <;> simp

/-- What the end of explicit-only mode leaves at an address: where the shape has an index `i` for it,
the blinds are those drawn for `i` and the peer holds the blinded share. -/
theorem reblind_entry (blinds : Player → Nat → T) (mem : Duoram T) (addr : Nat) :
    ∃ last : Option Nat, (last = none → ∀ i < shape.size, shape.cell i ≠ .mem addr) ∧
      (∀ p, ((shape.reblind blinds mem).comp p).entry addr = last.elim ((mem.comp p).entry addr)
        fun i => ((mem.comp p).database addr, blinds p i,
          (mem.comp p.peer).database addr + blinds p.peer i)) ∧
      (shape.reblind blinds mem).server.entry addr = last.elim (mem.server.entry addr)
        fun i => (blinds .p0 i, blinds .p1 i) := by
  obtain ⟨last, hsome, hnone, hloop⟩ :=
    forRange_overwrite (fun i => shape.cell i = .mem addr) shape.size
  refine ⟨last, hnone, fun p => ?_, ?_⟩
  · refine (shape.forRange_modifyComp_entry (fun i v => (v.1, v.2.1,
      (shape.getComp p.peer (mem.comp p.peer) i).1 + blinds p.peer i)) _ _ _).trans ?_
    refine (hloop (fun i v => (v.1, v.2.1,
      (shape.getComp p.peer (mem.comp p.peer) i).1 + blinds p.peer i)) (fun _ _ _ => rfl) _).trans ?_
    rw [shape.forRange_modifyComp_entry (fun i v => (v.1, blinds p i, v.2.2)),
      hloop (fun i v => (v.1, blinds p i, v.2.2)) (fun _ _ _ => rfl)]
    cases last with
    | none => rfl
    | some i =>
        have hcell := (hsome i rfl).2
        simp only [Option.elim_some, getComp, hcell]
        rfl
  · exact (shape.forRange_modifyServer_entry _ _ _ _).trans
      (hloop (fun i _ => (blinds .p0 i, blinds .p1 i)) (fun _ _ _ => rfl) _)

/-- The end of explicit-only mode makes every address of the shape consistent, and keeps the others
so. -/
theorem reblind_consistentAt (blinds : Player → Nat → T)
    (h : mem.ConsistentAt addr ∨ ∃ i < shape.size, shape.cell i = .mem addr) :
    (shape.reblind blinds mem).ConsistentAt addr := by
  obtain ⟨last, hnone, hcomp, hserver⟩ := shape.reblind_entry blinds mem addr
  rw [Duoram.consistentAt_iff]
  simp only [hcomp, hserver]
  cases last with
  | none =>
      rcases h with h | ⟨i, hi, hcell⟩
      · exact Duoram.consistentAt_iff.mp h
      · exact absurd hcell (hnone rfl i hi)
  | some i => exact ⟨fun p => rfl, rfl⟩

theorem reblind_database (blinds : Player → Nat → T) (mem : Duoram T) (addr : Nat) (p : Player) :
    ((shape.reblind blinds mem).comp p).database addr = (mem.comp p).database addr := by
  obtain ⟨last, -, hcomp, -⟩ := shape.reblind_entry blinds mem addr
  have h := congrArg Prod.fst (hcomp p)
  cases last with
  | none => exact h
  | some i => exact h

/-- Leaving explicit-only mode, if it was on, keeps a consistent memory consistent. -/
theorem explicitonly_consistent {shape : Shape oramSize} (blinds : Player → Nat → T)
    (explicitmode : Bool) (h : mem.Consistent oramSize) :
    (shape.explicitonly false blinds (mem, explicitmode)).1.Consistent oramSize := by
  cases explicitmode
  · exact h
  · intro addr haddr
    exact shape.reblind_consistentAt blinds (Or.inl (h addr haddr))

theorem explicitonly_database {shape : Shape oramSize} (blinds : Player → Nat → T)
    (explicitmode : Bool) (mem : Duoram T) (addr : Nat) (p : Player) :
    ((shape.explicitonly false blinds (mem, explicitmode)).1.comp p).database addr =
      (mem.comp p).database addr := by
  cases explicitmode
  · rfl
  · exact shape.reblind_database blinds mem addr p

end Shape

namespace MemRefExpl

variable (shape : Shape oramSize) {mem : Duoram T} {addr : Nat}

/-- An explicit update outside explicit-only mode keeps every address consistent. -/
theorem update_consistentAt (idx : Nat) (M blind : Player → T) (h : mem.ConsistentAt addr) :
    (update shape false idx M blind mem).ConsistentAt addr := by
  rw [Duoram.consistentAt_iff] at h ⊢
  obtain ⟨hpeer, hserver⟩ := h
  simp only [update, Bool.false_eq_true, if_false, Shape.modifyComp_entry,
    Shape.modifyServer_entry]
  split
  · refine ⟨fun p => ?_, ?_⟩
    · rw [hpeer, add_add_add_comm]
    · rw [hserver]
  · exact ⟨hpeer, hserver⟩

/-- An explicit update, in either mode, adds `M` to the database at its cell. -/
theorem update_reconstruct (explicitmode : Bool) (idx : Nat) (M blind : Player → T)
    (mem : Duoram T) (addr : Nat) :
    (update shape explicitmode idx M blind mem).reconstruct addr =
      mem.reconstruct addr + if shape.cell idx = .mem addr then M .p0 + M .p1 else 0 := by
  simp only [Duoram.reconstruct_eq_entry]
  cases explicitmode <;>
    simp only [update, Bool.false_eq_true, if_false, if_true, Shape.modifyComp_entry] <;> split
  · exact add_add_add_comm _ _ _ _
  · exact (add_zero _).symm
  · exact add_add_add_comm _ _ _ _
  · exact (add_zero _).symm

end MemRefExpl

end Prac
