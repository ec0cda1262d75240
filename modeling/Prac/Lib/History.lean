import Mathlib.Data.List.Basic

/-!
# Histories of operations

A machine whose operations may fail runs a list of them, and stops at the first one that fails.

* `History.Along` — a condition on the state and the operation, before every operation of a history.
* `History.outputs` — what the operations put out.
* `History.forall_outputs_iff` — an equivalence that every operation has, for the whole history.
-/

namespace History

variable {σ α β : Type*} (step : σ → α → Option σ)

/-- The condition holds before every operation. -/
def Along (P : σ → α → Prop) : σ → List α → Prop
  | _, [] => True
  | s, a :: as => P s a ∧ ∀ s', step s a = some s' → Along P s' as

/-- The outputs of the operations, the one that fails included. -/
def outputs (out : σ → α → List β) : σ → List α → List β
  | _, [] => []
  | s, a :: as => out s a ++ match step s a with
    | some s' => outputs out s' as
    | none => []

variable {step}

theorem along_and {P Q : σ → α → Prop} {as : List α} {s : σ} :
    Along step (fun s a => P s a ∧ Q s a) s as ↔ Along step P s as ∧ Along step Q s as := by
  induction as generalizing s with
  | nil => simp [Along]
  | cons a as ih =>
      simp only [Along, ih]
      constructor
      · rintro ⟨⟨hp, hq⟩, hrest⟩
        exact ⟨⟨hp, fun s' hs => (hrest s' hs).1⟩, hq, fun s' hs => (hrest s' hs).2⟩
      · rintro ⟨⟨hp, hps⟩, hq, hqs⟩
        exact ⟨⟨hp, hq⟩, fun s' hs => ⟨hps s' hs, hqs s' hs⟩⟩

theorem mem_outputs_cons {out : σ → α → List β} {s : σ} {a : α} {as : List α} {o : β} :
    o ∈ outputs step out s (a :: as) ↔
      o ∈ out s a ∨ ∃ s', step s a = some s' ∧ o ∈ outputs step out s' as := by
  rw [outputs, List.mem_append]
  cases step s a with
  | none => simp
  | some s' => simp

/-- Where the outputs of every operation satisfy `Q` iff the operation satisfies `R`, those of a history do iff
all its operations do. -/
theorem forall_outputs_iff {out : σ → α → List β} {Inv : σ → Prop} {P R : σ → α → Prop} {Q : β → Prop}
    (hstep : ∀ s a s', Inv s → P s a → step s a = some s' → Inv s')
    (hout : ∀ s a, Inv s → P s a → ((∀ o ∈ out s a, Q o) ↔ R s a)) {as : List α} {s : σ} (hinv : Inv s)
    (halong : Along step P s as) : (∀ o ∈ outputs step out s as, Q o) ↔ Along step R s as := by
  induction as generalizing s with
  | nil => simp [Along, outputs]
  | cons a as ih =>
      obtain ⟨hp, hrest⟩ := halong
      have hlater : ∀ s', step s a = some s' →
          ((∀ o ∈ outputs step out s' as, Q o) ↔ Along step R s' as) := fun s' hs =>
        ih (hstep s a s' hinv hp hs) (hrest s' hs)
      rw [Along, ← hout s a hinv hp]
      constructor
      · intro hall
        refine ⟨fun o ho => hall o (mem_outputs_cons.2 (.inl ho)), fun s' hs => (hlater s' hs).1 fun o ho => ?_⟩
        exact hall o (mem_outputs_cons.2 (.inr ⟨s', hs, ho⟩))
      · rintro ⟨hhere, hthere⟩ o ho
        rcases mem_outputs_cons.1 ho with ho | ⟨s', hs, ho⟩
        · exact hhere o ho
        · exact (hlater s' hs).2 (hthere s' hs) o ho

end History
