import Prac.DuoramRead

/-!
# Oblivious updates are correct

* `MemRefS.updateComp_spec`, `MemRefS.updateServer_spec` — an update adds one vector to each array.
* `oramUpdate_spec` — the update changes the database by `M` at the index only, and keeps every address
  consistent.
-/

namespace Prac

variable {T U : Type} [Register T] [SharedIndex U] {oramSize WIDTH : Nat}

namespace MemRefS

/-- What evaluation number `i` adds for one RDPF, at the window's entry. -/
def hitValue (U : Type) [SharedIndex U] (prg : PRG WIDTH) (depth indshift : Nat) (d : RDPF WIDTH)
    (windex : Fin WIDTH) (Mshift : Value) (i : Nat) : T :=
  (Register.scaled d (hitLeaf U prg depth indshift i d)).getD 0 windex +
    Register.mulValue (hitUnit T U prg depth indshift i d) Mshift

theorem hitValue_copy {prg : PRG WIDTH} {depth indshift : Nat} {d d' : RDPF WIDTH}
    (h : d.IsCopy d') (windex : Fin WIDTH) (Mshift : Value) (i : Nat) :
    hitValue U prg depth indshift d windex Mshift i =
      (hitValue U prg depth indshift d' windex Mshift i : T) := by
  rw [hitValue, hitValue, hitUnit_copy h, hitLeaf, hitLeaf, h.leafAt, Register.scaled_copy h]

theorem hitValue_eq {n : Nat} [NeZero n] {prg : PRG WIDTH} {rdpf : RDPFTuple n WIDTH} {k : Fin n}
    {indshift i : Nat} {s : Fin WIDTH → T}
    (hs : Register.scaled (rdpf k) (evalLeaf prg rdpf (SharedIndex.ifRegAS U indshift)
      (SharedIndex.ifRegXS U indshift) i k) = some s) (windex : Fin WIDTH) (Mshift : Value) :
    s windex + Register.mulValue (Register.unit (rdpf k) (evalLeaf prg rdpf
        (SharedIndex.ifRegAS U indshift) (SharedIndex.ifRegXS U indshift) i k)) Mshift =
      hitValue U prg rdpf.depth indshift (rdpf k) windex Mshift i := by
  have hscaled : Register.scaled (rdpf k) (hitLeaf U prg rdpf.depth indshift i (rdpf k)) = some s := hs
  rw [hitValue, hscaled]
  rfl

/-- The sum of what the evaluations whose cell is `addr` add. -/
def addedAt {V : Type} [AddCommMonoid V] (shape : Shape oramSize) (addr : Nat) (f : Nat → V)
    (n : Nat) : V :=
  ∑ i ∈ Finset.range n, if shape.cell i = .mem addr then f i else 0

theorem addedAt_succ {V : Type} [AddCommMonoid V] (shape : Shape oramSize) (addr : Nat)
    (f : Nat → V) (n : Nat) : addedAt shape addr f (n + 1) =
      addedAt shape addr f n + if shape.cell n = .mem addr then f n else 0 :=
  Finset.sum_range_succ _ n

/-- A computational party's update adds to its three entries at an address. -/
theorem updateComp_spec {prg : PRG WIDTH} {shape : Shape oramSize} {dt : RDPFTriple WIDTH}
    (hready : dt.dpf.Ready prg) (hsize : shape.size ≤ 2 ^ dt.depth) (hwidth : WIDTH = 1 ∨ WIDTH = 2)
    (nthreads : ℕ+) (p : Player) (windex : Fin WIDTH) (indshift : Nat)
    (Mshift : Fin 3 → Fin WIDTH → Value) (m : CompDuoram T) :
    ∃ m', updateComp U prg nthreads shape p dt windex indshift Mshift m = some m' ∧
      ∀ addr, m'.entry addr = m.entry addr + addedAt shape addr (fun i =>
        let V k : T := hitValue U prg dt.depth indshift (dt.dpf k) windex (Mshift k windex) i
        if p.bit then (V 0, -V 2, V 1 - V 0) else (V 0, -V 1, V 2 - V 0)) shape.size := by
  unfold updateComp
  refine ParallelEval.reduce_inv (V := Nat) hready hsize nthreads
    (fun n _ s => ∃ m', s = some m' ∧ ∀ addr, m'.entry addr = m.entry addr + addedAt shape addr
      (fun i =>
        let V k : T := hitValue U prg dt.depth indshift (dt.dpf k) windex (Mshift k windex) i
        if p.bit then (V 0, -V 2, V 1 - V 0) else (V 0, -V 1, V 2 - V 0)) n)
    ⟨m, rfl, fun addr => (add_zero _).symm⟩ ?_
  rintro i - - s ⟨m', rfl, hm'⟩
  obtain ⟨s0, hs0⟩ := Register.scaled_isSome (T := T) hwidth (dt.dpf 0)
    (evalLeaf prg dt.dpf (SharedIndex.ifRegAS U indshift) (SharedIndex.ifRegXS U indshift) i 0)
  obtain ⟨s1, hs1⟩ := Register.scaled_isSome (T := T) hwidth (dt.dpf 1)
    (evalLeaf prg dt.dpf (SharedIndex.ifRegAS U indshift) (SharedIndex.ifRegXS U indshift) i 1)
  obtain ⟨s2, hs2⟩ := Register.scaled_isSome (T := T) hwidth (dt.dpf 2)
    (evalLeaf prg dt.dpf (SharedIndex.ifRegAS U indshift) (SharedIndex.ifRegXS U indshift) i 2)
  simp only [hs0, hs1, hs2, Option.bind_eq_bind, Option.bind_some, Option.some.injEq,
    exists_eq_left', Shape.modifyComp_entry, hitValue_eq hs0, hitValue_eq hs1, hitValue_eq hs2]
  intro addr
  rw [addedAt_succ, ← add_assoc, ← hm' addr]
  by_cases hcell : shape.cell i = .mem addr
  · rw [if_pos hcell, if_pos hcell]
    cases p <;> simp only [Player.bit_p0, Player.bit_p1, Bool.false_eq_true, if_true, if_false,
      sub_eq_add_neg] <;> rfl
  · rw [if_neg hcell, if_neg hcell, add_zero]

/-- The server's update adds to its two entries at an address. -/
theorem updateServer_spec {prg : PRG WIDTH} {shape : Shape oramSize} {dp : RDPFPair WIDTH}
    (hready : dp.Ready prg) (hsize : shape.size ≤ 2 ^ dp.depth) (hwidth : WIDTH = 1 ∨ WIDTH = 2)
    (nthreads : ℕ+) (windex : Fin WIDTH) (indshift : Nat) (Mshift : Fin 2 → Fin WIDTH → Value)
    (m : ServerDuoram T) :
    ∃ m', updateServer U prg nthreads shape dp windex indshift Mshift m = some m' ∧
      ∀ addr, m'.entry addr = m.entry addr + addedAt shape addr (fun i =>
        let V k : T := hitValue U prg dp.depth indshift (dp k) windex (Mshift k windex) i
        (-V 0, -V 1)) shape.size := by
  unfold updateServer
  refine ParallelEval.reduce_inv (V := Nat) hready hsize nthreads
    (fun n _ s => ∃ m', s = some m' ∧ ∀ addr, m'.entry addr = m.entry addr + addedAt shape addr
      (fun i =>
        let V k : T := hitValue U prg dp.depth indshift (dp k) windex (Mshift k windex) i
        (-V 0, -V 1)) n)
    ⟨m, rfl, fun addr => (add_zero _).symm⟩ ?_
  rintro i - - s ⟨m', rfl, hm'⟩
  obtain ⟨s0, hs0⟩ := Register.scaled_isSome (T := T) hwidth (dp 0)
    (evalLeaf prg dp (SharedIndex.ifRegAS U indshift) (SharedIndex.ifRegXS U indshift) i 0)
  obtain ⟨s1, hs1⟩ := Register.scaled_isSome (T := T) hwidth (dp 1)
    (evalLeaf prg dp (SharedIndex.ifRegAS U indshift) (SharedIndex.ifRegXS U indshift) i 1)
  simp only [hs0, hs1, Option.bind_eq_bind, Option.bind_some, Option.some.injEq,
    exists_eq_left', Shape.modifyServer_entry, hitValue_eq hs0, hitValue_eq hs1]
  intro addr
  rw [addedAt_succ, ← add_assoc, ← hm' addr]
  by_cases hcell : shape.cell i = .mem addr
  · rw [if_pos hcell, if_pos hcell, sub_eq_add_neg, sub_eq_add_neg]
    rfl
  · rw [if_neg hcell, if_neg hcell, add_zero]

end MemRefS

/-! ## The update of the three parties -/

namespace OblivIndex

variable {prg : PRG WIDTH} {depth : Nat} {ox : OblivIndex U WIDTH}

/-- Player `p`'s message shift for the `k`-th pair, at the window's entry. -/
def mshift (ox : OblivIndex U WIDTH) (windex : Fin WIDTH) (M : Player → T) (k : Fin 3) (p : Player) :
    Value :=
  Register.combine (MemRefS.moffset (MemRefS.scaledVal (ox.dt p)) windex (M p) k windex)
    (MemRefS.moffset (MemRefS.scaledVal (ox.dt p.peer)) windex (M p.peer) k windex)

/-- The message shifts of the server: of the second and third offsets, which it is sent. -/
def serverMshift (ox : OblivIndex U WIDTH) (windex : Fin WIDTH) (M : Player → T) :
    Fin 2 → Fin WIDTH → Value :=
  let Moffset p := MemRefS.moffset (MemRefS.scaledVal (ox.dt p)) windex (M p)
  ![fun w => Register.combine (Moffset .p0 1 w) (Moffset .p1 1 w),
    fun w => Register.combine (Moffset .p0 2 w) (Moffset .p1 2 w)]

omit [SharedIndex U] in
theorem serverMshift_zero (ox : OblivIndex U WIDTH) (windex : Fin WIDTH) (M : Player → T) :
    ox.serverMshift windex M 0 windex = ox.mshift windex M 1 .p0 := rfl

omit [SharedIndex U] in
theorem serverMshift_one (ox : OblivIndex U WIDTH) (windex : Fin WIDTH) (M : Player → T) :
    ox.serverMshift windex M 1 windex = ox.mshift windex M 2 .p1 :=
  Register.combine_comm _ _

/-- What evaluation number `i` adds for player `p`'s `k`-th RDPF. -/
def valueShare (prg : PRG WIDTH) (ox : OblivIndex U WIDTH) (depth : Nat) (windex : Fin WIDTH)
    (M : Player → T) (k : Fin 3) (p : Player) (i : Nat) : T :=
  MemRefS.hitValue U prg depth (ox.opened depth) ((ox.dt p).dpf k) windex (ox.mshift windex M k p) i

/-- **One pair writes `M` at the index**: the scaled shares carry the random scaled value, and the unit
shares times the opened message shift replace it by `M`. -/
theorem UpdateValid.valueShare_add (h : ox.UpdateValid T prg depth) (hwidth : WIDTH = 1 ∨ WIDTH = 2)
    (windex : Fin WIDTH) (M : Player → T) (k : Fin 3) {i : Nat} (hi : i < 2 ^ depth) :
    ox.valueShare prg depth windex M k .p0 i + ox.valueShare prg depth windex M k .p1 i =
      if i = ox.index depth then M .p0 + M .p1 else 0 := by
  have hunit := h.toValid.unitShare_add k hi
  have hhit := ox.hitIndex_eq_target_iff (h.toValid.le.trans (by decide)) hi
  obtain ⟨s0, hs0⟩ := Register.scaled_isSome (T := T) hwidth ((ox.dt .p0).dpf k)
    (MemRefS.hitLeaf U prg depth (ox.opened depth) i ((ox.dt .p0).dpf k))
  obtain ⟨s1, hs1⟩ := Register.scaled_isSome (T := T) hwidth ((ox.dt .p1).dpf k)
    (MemRefS.hitLeaf U prg depth (ox.opened depth) i ((ox.dt .p1).dpf k))
  have hscaled : s0 windex + s1 windex = _ := h.scaled k _ (MemRefS.hitIndex_lt U depth (ox.opened depth) i)
    (Player.rec s0 s1) (fun p => by cases p <;> assumption) windex
  simp only [hhit] at hscaled
  unfold valueShare MemRefS.hitValue mshift
  rw [hs0, hs1, Register.mulValue_combine, Register.mulValue_combine]
  unfold unitShare at hunit
  simp only [Option.getD_some, Player.peer_p0, Player.peer_p1, MemRefS.moffset_self]
  rw [eq_sub_of_add_eq' hunit, eq_sub_of_add_eq' hscaled]
  split <;> ring

end OblivIndex

/-- The values that the three parties add at an address, as one sum for each RDPF. -/
theorem MemRefS.addedAt_add (shape : Shape oramSize) (addr : Nat) (f g : Nat → T) (n : Nat) :
    MemRefS.addedAt shape addr f n + MemRefS.addedAt shape addr g n =
      MemRefS.addedAt shape addr (fun i => f i + g i) n := by
  unfold MemRefS.addedAt
  rw [← Finset.sum_add_distrib]
  refine Finset.sum_congr rfl fun i _ => ?_
  split
  · rfl
  · exact add_zero _

theorem MemRefS.addedAt_index (shape : Shape oramSize) (addr index : Nat) (v : T) (n : Nat) :
    MemRefS.addedAt shape addr (fun i => if i = index then v else 0) n =
      if index < n ∧ shape.cell index = .mem addr then v else 0 := by
  unfold MemRefS.addedAt
  have hterm : ∀ i ∈ Finset.range n,
      (if shape.cell i = .mem addr then if i = index then v else 0 else 0) =
        if i = index then if shape.cell index = .mem addr then v else 0 else 0 := by
    intro i _
    by_cases hi : i = index
    · subst hi
      simp
    · simp [hi]
  rw [Finset.sum_congr rfl hterm, Finset.sum_ite_eq']
  simp only [Finset.mem_range, ite_and]

theorem MemRefS.addedAt_congr (shape : Shape oramSize) (addr : Nat) {V : Type} [AddCommMonoid V]
    {f g : Nat → V} {n : Nat} (h : ∀ i < n, f i = g i) :
    MemRefS.addedAt shape addr f n = MemRefS.addedAt shape addr g n :=
  Finset.sum_congr rfl fun i hi => by rw [h i (Finset.mem_range.mp hi)]

theorem MemRefS.addedAt_fst {V W : Type} [AddCommMonoid V] [AddCommMonoid W]
    (shape : Shape oramSize) (addr : Nat) (f : Nat → V × W) (n : Nat) :
    (MemRefS.addedAt shape addr f n).1 = MemRefS.addedAt shape addr (fun i => (f i).1) n := by
  unfold MemRefS.addedAt
  rw [Prod.fst_sum]
  exact Finset.sum_congr rfl fun i _ => apply_ite Prod.fst _ _ _

theorem MemRefS.addedAt_snd {V W : Type} [AddCommMonoid V] [AddCommMonoid W]
    (shape : Shape oramSize) (addr : Nat) (f : Nat → V × W) (n : Nat) :
    (MemRefS.addedAt shape addr f n).2 = MemRefS.addedAt shape addr (fun i => (f i).2) n := by
  unfold MemRefS.addedAt
  rw [Prod.snd_sum]
  exact Finset.sum_congr rfl fun i _ => apply_ite Prod.snd _ _ _

section ThreeParties

variable {prg : PRG WIDTH} {depth : Nat} {ox : OblivIndex U WIDTH}

/-- The memory after an update outside explicit-only mode, entry by entry: each party adds its value
shares of the evaluations whose cell is the address. -/
theorem oramUpdate_entries (nthreads : Player → ℕ+) (serverThreads : ℕ+) {shape : Shape oramSize}
    (hdepth : shape.addrSize ≤ depth) (hox : ox.UpdateValid T prg depth)
    (hwidth : WIDTH = 1 ∨ WIDTH = 2) (hwindex : ox.nextWindex < WIDTH) (M : Player → T)
    (blinds : Player → Nat → T) (mem : Duoram T) :
    ∃ mem', MemRefS.oramUpdate prg nthreads serverThreads shape ox M blinds (mem, false) =
        some ((mem', false), { ox with nextWindex := ox.nextWindex + 1 }) ∧
      let V k p i := ox.valueShare prg depth ⟨ox.nextWindex, hwindex⟩ M k p i
      ∀ addr,
        (∀ p, (mem'.comp p).entry addr = (mem.comp p).entry addr +
          MemRefS.addedAt shape addr (fun i => if p.bit
            then (V 0 p i, -V 2 p i, V 1 p i - V 0 p i)
            else (V 0 p i, -V 1 p i, V 2 p i - V 0 p i)) shape.size) ∧
        mem'.server.entry addr = mem.server.entry addr +
          MemRefS.addedAt shape addr (fun i => (-V 1 .p0 i, -V 2 .p1 i)) shape.size := by
  have hsize : shape.size ≤ 2 ^ depth :=
    shape.size_le_pow_addrSize.trans (Nat.pow_le_pow_right Nat.two_pos hdepth)
  have htriple p := hox.toValid.triple_depth p
  have hsizeT p : shape.size ≤ 2 ^ (ox.dt p).depth := by rwa [htriple]
  have hsizeP : shape.size ≤ 2 ^ ox.dp.depth := by rwa [hox.toValid.pair_depth]
  have hcomp p := MemRefS.updateComp_spec (T := T) (U := U) (hox.ready p) (hsizeT p) hwidth (nthreads p) p
    ⟨ox.nextWindex, hwindex⟩
    (MemRefS.indshift (ox.dt p).depth (MemRefS.indoffset ox p) (MemRefS.indoffset ox p.peer))
    (fun k w => Register.combine
      (MemRefS.moffset (MemRefS.scaledVal (ox.dt p)) ⟨ox.nextWindex, hwindex⟩ (M p) k w)
      (MemRefS.moffset (MemRefS.scaledVal (ox.dt p.peer)) ⟨ox.nextWindex, hwindex⟩ (M p.peer) k w))
    (mem.comp p)
  obtain ⟨comp0, hrun0, hentry0⟩ := hcomp .p0
  obtain ⟨comp1, hrun1, hentry1⟩ := hcomp .p1
  obtain ⟨server, hrunS, hentryS⟩ := MemRefS.updateServer_spec (T := T) (U := U) hox.serverReady hsizeP
    hwidth serverThreads ⟨ox.nextWindex, hwindex⟩
    (MemRefS.indshift ox.dp.depth (MemRefS.indoffset ox .p0) (MemRefS.indoffset ox .p1))
    (ox.serverMshift ⟨ox.nextWindex, hwindex⟩ M)
    mem.server
  refine ⟨⟨fun p => if p.bit then comp1 else comp0, server⟩, ?_, ?_⟩
  · have hexp : shape.explicitonly false blinds (mem, false) = (mem, false) := rfl
    simp only [MemRefS.oramUpdate, hexp, OblivIndex.windex, dif_pos hwindex, Option.bind_eq_bind,
      Option.bind_some, hrun0, hrun1]
    rw [OblivIndex.serverMshift] at hrunS
    rw [hrunS, Option.bind_some]
  · intro V addr
    simp only [htriple, OblivIndex.indshift_comm] at hentry0 hentry1
    simp only [hox.toValid.pair_depth, MemRefS.hitValue_copy hox.copy0,
      MemRefS.hitValue_copy hox.copy1, OblivIndex.serverMshift_zero, OblivIndex.serverMshift_one]
      at hentryS
    refine ⟨fun p => ?_, hentryS addr⟩
    cases p
    · exact hentry0 addr
    · exact hentry1 addr

/-- **Oblivious updates are correct.**  With valid keys an update succeeds, keeps every address
consistent, and changes the database by `M` at the cell of the index only. -/
theorem oramUpdate_spec (nthreads : Player → ℕ+) (serverThreads : ℕ+) {shape : Shape oramSize}
    (hdepth : shape.addrSize ≤ depth) (hox : ox.UpdateValid T prg depth)
    (hwidth : WIDTH = 1 ∨ WIDTH = 2) (hwindex : ox.nextWindex < WIDTH) (M : Player → T)
    (blinds : Player → Nat → T) (mem : Duoram T) :
    ∃ mem', MemRefS.oramUpdate prg nthreads serverThreads shape ox M blinds (mem, false) =
        some ((mem', false), { ox with nextWindex := ox.nextWindex + 1 }) ∧
      ∀ addr, (mem.ConsistentAt addr → mem'.ConsistentAt addr) ∧
        mem'.reconstruct addr = mem.reconstruct addr +
          if ox.index depth < shape.size ∧ shape.cell (ox.index depth) = .mem addr
          then M .p0 + M .p1 else 0 := by
  have hsize : shape.size ≤ 2 ^ depth :=
    shape.size_le_pow_addrSize.trans (Nat.pow_le_pow_right Nat.two_pos hdepth)
  obtain ⟨mem', hrun, hentries⟩ := oramUpdate_entries nthreads serverThreads hdepth hox hwidth
    hwindex M blinds mem
  refine ⟨mem', hrun, fun addr => ?_⟩
  obtain ⟨hcomp, hserver⟩ := hentries addr
  have hsum (k l : Fin 3) : ∀ i < shape.size,
      ox.valueShare prg depth ⟨ox.nextWindex, hwindex⟩ M k .p0 i +
          ox.valueShare prg depth ⟨ox.nextWindex, hwindex⟩ M k .p1 i =
        ox.valueShare prg depth ⟨ox.nextWindex, hwindex⟩ M l .p0 i +
          ox.valueShare prg depth ⟨ox.nextWindex, hwindex⟩ M l .p1 i := by
    intro i hi
    have hi := lt_of_lt_of_le hi hsize
    rw [hox.valueShare_add hwidth _ _ _ hi, hox.valueShare_add hwidth _ _ _ hi]
  refine ⟨fun hcons => ?_, ?_⟩
  · rw [Duoram.consistentAt_iff] at hcons ⊢
    obtain ⟨hpeer, hblind⟩ := hcons
    refine ⟨fun p => ?_, ?_⟩
    · cases p
      · simp only [hcomp, Prod.fst_add, Prod.snd_add, hpeer, Player.peer_p0, MemRefS.addedAt_fst,
          MemRefS.addedAt_snd, Player.bit_p0, Player.bit_p1, Bool.false_eq_true, if_false, if_true]
        rw [add_add_add_comm, MemRefS.addedAt_add]
        congr 1
        refine MemRefS.addedAt_congr shape addr fun i hi => ?_
        rw [← sub_eq_add_neg, sub_eq_sub_iff_add_eq_add, add_comm (ox.valueShare _ _ _ _ 0 .p1 i)]
        exact hsum 2 0 i hi
      · simp only [hcomp, Prod.fst_add, Prod.snd_add, hpeer, Player.peer_p1, MemRefS.addedAt_fst,
          MemRefS.addedAt_snd, Player.bit_p0, Player.bit_p1, Bool.false_eq_true, if_false, if_true]
        rw [add_add_add_comm, MemRefS.addedAt_add]
        congr 1
        refine MemRefS.addedAt_congr shape addr fun i hi => ?_
        rw [← sub_eq_add_neg, sub_eq_sub_iff_add_eq_add,
          add_comm (ox.valueShare _ _ _ _ 1 .p1 i)]
        exact hsum 1 0 i hi
    · simp only [hcomp, hserver, hblind, Prod.fst_add, Prod.snd_add, MemRefS.addedAt_fst,
        MemRefS.addedAt_snd, Player.bit_p0, Player.bit_p1, Bool.false_eq_true, if_false, if_true]
      refine Prod.ext ?_ ?_
      · simp only [Prod.fst_add, MemRefS.addedAt_fst]
      · simp only [Prod.snd_add, MemRefS.addedAt_snd]
  · simp only [Duoram.reconstruct_eq_entry, hcomp, Prod.fst_add, MemRefS.addedAt_fst,
      Player.bit_p0, Player.bit_p1, Bool.false_eq_true, if_false, if_true]
    rw [add_add_add_comm, MemRefS.addedAt_add, MemRefS.addedAt_congr shape addr
      (fun i hi => hox.valueShare_add hwidth _ M 0 (lt_of_lt_of_le hi hsize)),
      MemRefS.addedAt_index]

end ThreeParties

end Prac
