import Prac.Lib.History
import Prac.Slots

/-!
# The addresses that BST insertions write to

* `BST.Op`, `BST.written` — the operations of a run, and the addresses that its insertions write their nodes to.
* `BST.Unshared` — what makes `BST.Packed` an invariant: no insertion takes an empty location in use.
* `BST.writes_inside` — when these addresses are inside the memory.
-/

namespace Prac

namespace BST

variable {oramSize : Nat}

/-! ## Runs -/

/-- An operation of a run. -/
inductive Op
  | insert (key value : Value)
  | del (key : Value)

/-- One operation.  An insertion fails where it writes outside the memory. -/
def step (b : BST oramSize) : Op → Option (BST oramSize)
  | .insert key value => b.insert (newNode key value)
  | .del key => some (b.del key).2

/-- The address that an operation writes a new node to. -/
def writes (b : BST oramSize) : Op → List Nat
  | .insert _ _ => [b.slot]
  | .del _ => []

/-- The addresses that the insertions of a run write their nodes to. -/
def written (b : BST oramSize) (ops : List Op) : List Nat := History.outputs step writes b ops

/-- The condition holds before every operation of a run. -/
def Along (P : BST oramSize → Op → Prop) (b : BST oramSize) (ops : List Op) : Prop := History.Along step P b ops

/-- The keys are not zero, those that are inserted are not stored yet, and there are never more items than
addresses from 1 on. -/
def Legal (b : BST oramSize) : Op → Prop
  | .insert key _ => key ≠ 0 ∧ (∀ a, b.Live a → b.oram.key a ≠ key) ∧ b.numItems + 1 < oramSize
  | .del key => key ≠ 0

/-- The next address is an `int`. -/
def Ranged (b : BST oramSize) : Op → Prop
  | .insert _ _ => b.numItems + 2 < 2 ^ 31
  | .del _ => True

/-- An insertion does not take an empty location that is in use. -/
def Unshared (b : BST oramSize) : Op → Prop
  | .insert _ _ => b.numItems ≠ 0 → ∀ addr ∈ b.emptyLocations.head?, ¬ b.Live addr.toNat
  | .del _ => True

/-- An insertion into a tree without empty locations leaves out an address, and has room for it. -/
def Roomy (b : BST oramSize) : Op → Prop
  | .insert _ _ => b.numItems ≠ 0 → b.emptyLocations = [] → b.numItems + 2 < oramSize
  | .del _ => True

/-! ## The next address -/

/-- The next address is inside the memory iff there is room. -/
theorem Packed.slot_inside_iff {b : BST oramSize} {t : LinkedTree} (h : b.Packed t)
    (hroom : b.numItems + 1 < oramSize) : 1 ≤ b.slot ∧ b.slot < oramSize ↔
      (b.numItems ≠ 0 → b.emptyLocations = [] → b.numItems + 2 < oramSize) := by
  rcases h.placed.slot_cases h.holds with ⟨hcount, hslot⟩ | ⟨_, addr, rest, hempty, hslot⟩ |
    ⟨hcount, hempty, hslot, _⟩
  · rw [hslot]
    exact iff_of_true ⟨Nat.le_refl _, by omega⟩ fun hne => absurd hcount hne
  · have haddr : b.slot ∈ b.addresses t := by
      refine List.mem_append_right _ ?_
      rw [hempty, hslot]
      exact List.mem_cons_self
    refine iff_of_true ⟨Nat.one_le_iff_ne_zero.2 (h.placed.ne_zero _ haddr),
      h.placed.inside _ haddr⟩ fun _ hnil => ?_
    rw [hnil] at hempty
    cases hempty
  · rw [hslot]
    exact ⟨fun hlt _ _ => hlt.2, fun hlt => ⟨by omega, hlt hcount hempty⟩⟩

/-- The next slot is free where no empty location in use is taken. -/
theorem Packed.slotFree {b b' : BST oramSize} {t : LinkedTree} (h : b.Packed t) {key value : Value}
    (hranged : b.Ranged (.insert key value)) (hunshared : b.Unshared (.insert key value))
    (hins : b.insert (newNode key value) = some b') : b.SlotFree t :=
  h.placed.slotFree h.holds
    (fun hcount addr haddr ht => hunshared hcount addr haddr (h.holds.live_iff.2 ht))
    (insert_slot_lt h.placed hins) hranged

/-! ## The addresses -/

/-- In a run that shares no slot the addresses are inside the memory iff every fresh one has room. -/
theorem written_inside_iff {ops : List Op}
    (hrun : Along (fun b op => b.Legal op ∧ b.Ranged op ∧ b.Unshared op) (init : BST oramSize) ops) :
    (∀ a ∈ written (init : BST oramSize) ops, 1 ≤ a ∧ a < oramSize) ↔ Along Roomy (init : BST oramSize) ops := by
  refine @History.forall_outputs_iff _ _ _ step writes (fun b => ∃ t, b.Packed t) _ _ _ ?_ ?_ _ _
    ⟨_, Packed.init⟩ hrun
  · rintro b (⟨key, value⟩ | key) b' ⟨t, ht⟩ ⟨hlegal, hranged, hunshared⟩ hstep
    · exact ⟨_, (ht.insert (fun a ha => hlegal.2.1 a (ht.holds.live_iff.2 ha))
        (ht.slotFree hranged hunshared hstep) hstep).1⟩
    · obtain rfl := Option.some.inj hstep
      obtain ⟨t', ht', -⟩ := ht.del hlegal
      exact ⟨t', ht'⟩
  · rintro b (⟨key, value⟩ | key) ⟨t, ht⟩ ⟨hlegal, _, _⟩
    · simp only [writes, List.mem_singleton, forall_eq]
      exact ht.slot_inside_iff hlegal.2.2
    · exact iff_of_true (fun a ha => absurd ha List.not_mem_nil) trivial

/-- What the operations of a run have to satisfy. -/
def StaysInside (b : BST oramSize) (op : Op) : Prop := (b.Ranged op ∧ b.Unshared op) ∧ b.Roomy op

/-- **Insertions write inside the memory** in the runs in which none takes an empty location in use and every
fresh address, which is one beyond the next free one, has room; and of the runs that share no slot, in no
others. -/
theorem writes_inside {ops : List Op} (hlegal : Along Legal (init : BST oramSize) ops) :
    (Along StaysInside (init : BST oramSize) ops →
      ∀ a ∈ written (init : BST oramSize) ops, 1 ≤ a ∧ a < oramSize) ∧
    (Along (fun b op => b.Ranged op ∧ b.Unshared op) (init : BST oramSize) ops →
      (∀ a ∈ written (init : BST oramSize) ops, 1 ≤ a ∧ a < oramSize) →
        Along StaysInside (init : BST oramSize) ops) := by
  constructor
  · intro hstays
    obtain ⟨hunshared, hroomy⟩ := History.along_and.1 hstays
    exact (written_inside_iff (History.along_and.2 ⟨hlegal, hunshared⟩)).2 hroomy
  · intro hunshared hinside
    exact History.along_and.2
      ⟨hunshared, (written_inside_iff (History.along_and.2 ⟨hlegal, hunshared⟩)).1 hinside⟩

/-- Inserting 20 and then 10. -/
def twoInserts : List Op := [.insert 20 1, .insert 10 2]

/-- The state between them. -/
theorem twoInserts_first (hsize : 1 < oramSize) : ∃ b : BST oramSize,
    step (init : BST oramSize) (.insert 20 1) = some b ∧ b.Holds (.node 1 .nil .nil) ∧ b.oram.key 1 = 20 ∧
      b.emptyLocations = [] := by
  obtain ⟨b, hins, hholds, hnode, _, hempty⟩ := @insert_empty oramSize init rfl hsize (newNode 20 1) rfl
  exact ⟨b, hins, hholds, congrArg Node.key hnode, hempty⟩

theorem twoInserts_legal (hsize : 2 < oramSize) : Along Legal (init : BST oramSize) twoInserts := by
  obtain ⟨b, hins, hholds, hkey, _⟩ := twoInserts_first (Nat.lt_of_succ_lt hsize)
  have hroom : (init : BST oramSize).numItems + 1 < oramSize := Nat.lt_of_succ_lt hsize
  refine ⟨⟨by decide, fun a ha => absurd rfl ha.1, hroom⟩, fun b' hb' => ?_⟩
  obtain rfl : b = b' := Option.some.inj (hins.symm.trans hb')
  have hcount : b.numItems = 1 := hholds.count
  refine ⟨⟨by decide, fun a ha => ?_, by omega⟩, fun _ _ => trivial⟩
  have hone : a = 1 := by simpa using hholds.live_iff.1 ha
  rw [hone, hkey]
  decide

/-- In a memory of eight nodes they are written inside. -/
theorem writes_inside_two : written (init : BST 8) twoInserts = [1, 3] ∧
    ∀ a ∈ written (init : BST 8) twoInserts, 1 ≤ a ∧ a < 8 := by
  refine ⟨rfl, ?_⟩
  obtain ⟨b, hins, hholds, _, hempty⟩ := @twoInserts_first 8 (by decide)
  have hranged : (init : BST 8).Ranged (.insert 20 1) := show 0 + 2 < 2 ^ 31 by decide
  refine (writes_inside (twoInserts_legal (by decide))).1 ⟨⟨⟨hranged, ?_⟩, ?_⟩, fun b' hb' => ?_⟩
  · exact fun hne => absurd rfl hne
  · exact fun hne => absurd rfl hne
  · obtain rfl : b = b' := Option.some.inj (hins.symm.trans hb')
    have hcount : b.numItems = 1 := hholds.count
    have hranged' : b.Ranged (.insert 10 2) := show b.numItems + 2 < 2 ^ 31 by omega
    refine ⟨⟨⟨hranged', fun _ addr haddr => ?_⟩, fun _ _ => by omega⟩, fun _ _ => trivial⟩
    rw [hempty] at haddr
    cases haddr

/-- In a memory of three nodes, which has two addresses for them, the second is written to the address 3. -/
theorem writes_outside : Along Legal (init : BST 3) twoInserts ∧ 3 ∈ written (init : BST 3) twoInserts :=
  ⟨twoInserts_legal (by decide), by decide⟩

/-- Filling an emptied tree again leaves its root among the empty locations.  The next node overwrites it, and
in the end a node is written to the dummy address 0. -/
theorem refilled_writes_zero : 0 ∈ written (init : BST 6)
    [.insert 20 1, .del 20, .insert 30 2, .insert 40 3, .insert 25 4, .del 25, .del 40, .del 77,
      .insert 50 5, .insert 60 6] := by
  decide +kernel

end BST

end Prac
