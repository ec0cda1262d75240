import Prac.Duoram
import Mathlib.Tactic.Ring

/-!
# What a wide RDPF discloses

* `moffsets` — the message offsets that a player sends when updates go through one `OblivIndex`, at
  window indices 0, 1, … in order.
* `moffsets_inj` — from the second window on, every message repeats the mask entries of the other
  windows, so the messages determine the values.
* `moffsets_masked_iff` — which pairs of update sequences the scaled values do mask.
-/

namespace Prac

variable {T : Type} [Register T] {WIDTH : Nat}

/-- The message offsets of successive updates through one `OblivIndex` whose next window index is
`nextWindex`; `none` when `windex` fails its assertion. -/
def moffsets (scaledVal : Fin 3 → Fin WIDTH → T) (nextWindex : Nat) :
    List T → Option (List (Fin 3 → Fin WIDTH → T))
  | [] => some []
  | M :: Ms =>
    if h : nextWindex < WIDTH then
      (moffsets scaledVal (nextWindex + 1) Ms).map (MemRefS.moffset scaledVal ⟨nextWindex, h⟩ M :: ·)
    else none

/-- The `j`-th message is the offset of the `j`-th value at the `j`-th window index. -/
theorem moffsets_spec (scaledVal : Fin 3 → Fin WIDTH → T) (nextWindex : Nat) (Ms : List T)
    (h : nextWindex + Ms.length ≤ WIDTH) :
    ∃ msgs, moffsets scaledVal nextWindex Ms = some msgs ∧ msgs.length = Ms.length ∧
      ∀ (j : Nat) (hj : j < Ms.length), msgs[j]? = some
        (MemRefS.moffset scaledVal ⟨nextWindex + j, by omega⟩ Ms[j]) := by
  induction Ms generalizing nextWindex with
  | nil => exact ⟨[], rfl, rfl, fun j hj => absurd hj (Nat.not_lt_zero j)⟩
  | cons M Ms ih =>
      have hlen : (M :: Ms).length = Ms.length + 1 := rfl
      have hlt : nextWindex < WIDTH := by omega
      obtain ⟨msgs, hrun, hlength, hmsg⟩ := ih (nextWindex + 1) (by omega)
      refine ⟨MemRefS.moffset scaledVal ⟨nextWindex, hlt⟩ M :: msgs, ?_, ?_, ?_⟩
      · unfold moffsets
        rw [dif_pos hlt, hrun, Option.map_some]
      · rw [List.length_cons, hlength, hlen]
      · intro j hj
        cases j with
        | zero => rfl
        | succ j =>
            have hj' : j < Ms.length := by omega
            have hwindow : nextWindex + 1 + j = nextWindex + (j + 1) := by omega
            rw [List.getElem?_cons_succ, hmsg j hj', List.getElem_cons_succ]
            simp only [hwindow]

/-- Two runs with the same messages have updates of the same number and, window by window, the same
message. -/
theorem moffset_eq_of_moffsets_eq {scaledVal scaledVal' : Fin 3 → Fin WIDTH → T} {Ms Ms' : List T}
    (hlen : Ms.length ≤ WIDTH) (hlen' : Ms'.length ≤ WIDTH)
    (heq : moffsets scaledVal 0 Ms = moffsets scaledVal' 0 Ms') :
    Ms.length = Ms'.length ∧ ∀ (j : Nat) (hj : j < Ms.length) (hj' : j < Ms'.length),
      MemRefS.moffset scaledVal ⟨j, by omega⟩ Ms[j] =
        MemRefS.moffset scaledVal' ⟨j, by omega⟩ Ms'[j] := by
  obtain ⟨msgs, hrun, hlength, hmsg⟩ := moffsets_spec scaledVal 0 Ms (by omega)
  obtain ⟨msgs', hrun', hlength', hmsg'⟩ :=
    moffsets_spec scaledVal' 0 Ms' (by omega)
  rw [hrun, hrun', Option.some.injEq] at heq
  subst heq
  refine ⟨hlength.symm.trans hlength', fun j hj hj' => ?_⟩
  have hboth := (hmsg j hj).symm.trans (hmsg' j hj')
  simpa using hboth

/-- **Two windows disclose the values.**  The message of window `i` carries the mask entry of every
other window `j` on its own, so equal messages come from equal masks and from equal values. -/
theorem moffsets_inj {scaledVal scaledVal' : Fin 3 → Fin WIDTH → T} {Ms Ms' : List T}
    (hlen : Ms.length ≤ WIDTH) (hlen' : Ms'.length ≤ WIDTH) (htwo : 2 ≤ Ms.length)
    (heq : moffsets scaledVal 0 Ms = moffsets scaledVal' 0 Ms') : Ms = Ms' := by
  obtain ⟨hlength, hmsg⟩ := moffset_eq_of_moffsets_eq hlen hlen' heq
  refine List.ext_getElem hlength fun j hj hj' => ?_
  -- a window other than `j` shows the mask entry of window `j`
  obtain ⟨i, hij, hi⟩ : ∃ i, i ≠ j ∧ i < Ms.length := by
    rcases Nat.eq_zero_or_pos j with rfl | hpos
    · exact ⟨1, one_ne_zero, by omega⟩
    · exact ⟨0, hpos.ne, by omega⟩
  have hmask := congrFun (congrFun (hmsg i hi (by omega)) 0) ⟨j, by omega⟩
  have hne : (⟨j, by omega⟩ : Fin WIDTH) ≠ ⟨i, by omega⟩ := fun h => hij (Fin.mk.inj h).symm
  simp only [MemRefS.moffset, Pi.sub_apply, Function.update_of_ne hne, Pi.zero_apply, zero_sub,
    neg_inj] at hmask
  have hvalue := congrFun (congrFun (hmsg j hj hj') 0) ⟨j, by omega⟩
  rw [MemRefS.moffset_self, MemRefS.moffset_self, hmask] at hvalue
  exact sub_left_inj.mp hvalue

/-- One update through a fresh index is masked: the mask entry of its window makes up for the
difference of the values. -/
theorem moffset_masked (scaledVal : Fin 3 → Fin WIDTH → T) (windex : Fin WIDTH) (M M' : T) :
    ∃ scaledVal', MemRefS.moffset scaledVal windex M = MemRefS.moffset scaledVal' windex M' := by
  refine ⟨fun k => Function.update (scaledVal k) windex (scaledVal k windex + M' - M), ?_⟩
  funext k w
  by_cases hw : w = windex
  · subst hw
    rw [MemRefS.moffset_self, MemRefS.moffset_self, Function.update_self]
    ring
  · simp [MemRefS.moffset, hw]

/-- **When the messages are masked**: exactly for sequences of one length that hold at most one update
or are the same. -/
theorem moffsets_masked_iff (Ms Ms' : List T) (hlen : Ms.length ≤ WIDTH)
    (hlen' : Ms'.length ≤ WIDTH) :
    (∀ scaledVal : Fin 3 → Fin WIDTH → T, ∃ scaledVal',
      moffsets scaledVal 0 Ms = moffsets scaledVal' 0 Ms') ↔
      Ms.length = Ms'.length ∧ (Ms.length ≤ 1 ∨ Ms = Ms') := by
  constructor
  · intro hmasked
    obtain ⟨scaledVal', heq⟩ := hmasked 0
    refine ⟨(moffset_eq_of_moffsets_eq hlen hlen' heq).1, ?_⟩
    by_cases htwo : 2 ≤ Ms.length
    · exact Or.inr (moffsets_inj hlen hlen' htwo heq)
    · exact Or.inl (by omega)
  · rintro ⟨hlength, hone | rfl⟩ scaledVal
    · match Ms, Ms' with
      | [], [] => exact ⟨scaledVal, rfl⟩
      | [M], [M'] =>
          have hpos : 0 < WIDTH := hlen
          obtain ⟨scaledVal', heq⟩ := moffset_masked scaledVal ⟨0, hpos⟩ M M'
          refine ⟨scaledVal', ?_⟩
          unfold moffsets
          rw [dif_pos hpos, dif_pos hpos, heq]
          rfl
      | [], _ :: _ => exact absurd hlength (by simp)
      | _ :: _, [] => exact absurd hlength (by simp)
      | [_], _ :: _ :: _ => exact absurd hlength (by simp)
      | _ :: _ :: _, _ => exact absurd hone (by simp)
    · exact ⟨scaledVal, rfl⟩

/-- The update 3 under the masks 7, 11 sends what the update 8 sends under some masks. -/
theorem moffsets_masked_single : ∃ scaledVal' : Fin 3 → Fin 2 → RegAS,
    moffsets (fun _ => ![RegAS.mk 7, RegAS.mk 11]) 0 [RegAS.mk 3] =
      moffsets scaledVal' 0 [RegAS.mk 8] :=
  (moffsets_masked_iff [RegAS.mk 3] [RegAS.mk 8] one_le_two one_le_two).mpr ⟨rfl, Or.inl le_rfl⟩ _

/-- Not every pair of sequences of one length is masked: at width 2 the updates 0, 0 and the updates
0, 1 are told apart by their messages. -/
theorem moffsets_not_masked : ¬ ∀ (WIDTH : Nat) (Ms Ms' : List RegAS), Ms.length ≤ WIDTH →
    Ms'.length ≤ WIDTH → Ms.length = Ms'.length → ∀ scaledVal : Fin 3 → Fin WIDTH → RegAS, ∃ scaledVal',
      moffsets scaledVal 0 Ms = moffsets scaledVal' 0 Ms' := by
  intro hmasked
  obtain ⟨scaledVal', heq⟩ := hmasked 2 [⟨0⟩, ⟨0⟩] [⟨0⟩, ⟨1⟩] le_rfl le_rfl rfl 0
  exact absurd (moffsets_inj (by decide) (by decide) (by decide) heq) (by decide)

end Prac
