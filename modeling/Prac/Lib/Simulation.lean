import Mathlib.Data.List.Basic
import Prac.Lib.History

/-!
# Machines with inputs and outputs, and simulation between them

* `Machine`, `Machine.Run` — a labelled transition relation and its runs, with the inputs taken and the
  outputs given.
* `run` — the runs of a step function that may fail, as a function (`run_iff`).
* `exec`, `Throughout` — the run of a step function that does not fail, and what holds of every input of it;
  `run_exec` — another one that does the same.
* `Simulates` — every step of the abstract machine from a related state is taken by the concrete one and
  leads to related states; inputs and outputs are translated.  `Simulates.run` carries it over to runs
  and `Simulates.trans` composes two levels.
-/

namespace Simulation

/-- A machine: from a state and an input, a next state and an output. -/
abbrev Machine (σ ι ο : Type*) := σ → ι → σ → ο → Prop

variable {σ τ υ ι κ μ ο ρ π : Type*}

/-- A run: the inputs it takes and the outputs it gives. -/
inductive Machine.Run (M : Machine σ ι ο) : σ → List ι → σ → List ο → Prop where
  | nil (s : σ) : Run M s [] s []
  | cons {s s' s'' : σ} {i : ι} {is : List ι} {o : ο} {os : List ο} (head : M s i s' o)
      (tail : Run M s' is s'' os) : Run M s (i :: is) s'' (o :: os)

/-- The machine of a step function that may fail. -/
def ofStep (step : σ → ι → Option (σ × ο)) : Machine σ ι ο := fun s i s' o => step s i = some (s', o)

/-- The run of a step function; `none` if a step fails. -/
def run (step : σ → ι → Option (σ × ο)) : σ → List ι → Option (σ × List ο)
  | s, [] => some (s, [])
  | s, i :: is => (step s i).bind fun (s', o) => (run step s' is).map fun (s'', os) => (s'', o :: os)

theorem run_cons {step : σ → ι → Option (σ × ο)} {s s' s'' : σ} {i : ι} {is : List ι} {o : ο}
    {os : List ο} (head : step s i = some (s', o)) (tail : run step s' is = some (s'', os)) :
    run step s (i :: is) = some (s'', o :: os) := by
  simp only [run, head, tail, Option.bind_some, Option.map_some]

/-- The two ways to say that a step function runs. -/
theorem run_iff {step : σ → ι → Option (σ × ο)} {is : List ι} {s s' : σ} {os : List ο} :
    run step s is = some (s', os) ↔ (ofStep step).Run s is s' os := by
  constructor
  · intro h
    induction is generalizing s os with
    | nil =>
        cases h
        exact .nil _
    | cons i is ih =>
        rw [run, Option.bind_eq_some_iff] at h
        obtain ⟨⟨s1, o⟩, head, h⟩ := h
        rw [Option.map_eq_some_iff] at h
        obtain ⟨⟨s2, os'⟩, tail, heq⟩ := h
        cases heq
        exact .cons head (ih tail)
  · intro h
    induction h with
    | nil s => rfl
    | cons head _ ih => exact run_cons head ih

/-- The run of a step function that does not fail. -/
def exec (step : σ → ι → σ × ο) : σ → List ι → σ × List ο
  | s, [] => (s, [])
  | s, i :: is => ((exec step (step s i).1 is).1, (step s i).2 :: (exec step (step s i).1 is).2)

/-- The condition holds of every input of a run, in the state that it is taken in. -/
def Throughout (P : σ → ι → Prop) (step : σ → ι → σ × ο) : σ → List ι → Prop
  | _, [] => True
  | s, i :: is => P s i ∧ Throughout P step (step s i).1 is

theorem Throughout.mono {P Q : σ → ι → Prop} {step : σ → ι → σ × ο} (h : ∀ s i, P s i → Q s i) {s : σ}
    {is : List ι} (hP : Throughout P step s is) : Throughout Q step s is := by
  induction is generalizing s with
  | nil => trivial
  | cons i is ih => exact ⟨h s i hP.1, ih hP.2⟩

/-- The machine of a step function that takes the inputs where a condition holds. -/
def ofStepOn (P : σ → ι → Prop) (step : σ → ι → σ × ο) : Machine σ ι ο :=
  fun s i s' o => P s i ∧ step s i = (s', o)

theorem Throughout.run {P : σ → ι → Prop} {step : σ → ι → σ × ο} {s : σ} {is : List ι}
    (h : Throughout P step s is) : (ofStepOn P step).Run s is (exec step s is).1 (exec step s is).2 := by
  induction is generalizing s with
  | nil => exact .nil s
  | cons i is ih => exact .cons ⟨h.1, rfl⟩ (ih h.2)

/-- The runs of a step function that may fail, from one that does not: every step does the same, and the outputs
agree in what `f` tells of them, as long as the abstract inputs satisfy `P` and the concrete ones `G`. -/
theorem run_exec (R : σ → τ → Prop) (f : ο → ρ) {P : τ → ι → Prop} {G : σ → ι → Prop} {C : σ → ι → Option (σ × ο)}
    {A : τ → ι → τ × ο} (h : ∀ s t i, R s t → P t i → G s i →
      ∃ s' o, C s i = some (s', o) ∧ f o = f (A t i).2 ∧ R s' (A t i).1) {is : List ι} {s : σ} {t : τ} (hR : R s t)
    (hP : Throughout P A t is) (hG : History.Along (fun s i => (C s i).map Prod.fst) G s is) :
    ∃ s' os, run C s is = some (s', os) ∧ os.map f = (exec A t is).2.map f ∧ R s' (exec A t is).1 := by
  induction is generalizing s t with
  | nil => exact ⟨s, [], rfl, rfl, hR⟩
  | cons i is ih =>
      obtain ⟨s1, o, hstep, hout, hR1⟩ := h s t i hR hP.1 hG.1
      obtain ⟨s2, os, hsteps, houts, hR2⟩ := ih hR1 hP.2 (hG.2 s1 (congrArg (Option.map Prod.fst) hstep))
      refine ⟨s2, o :: os, run_cons hstep hsteps, ?_, hR2⟩
      rw [List.map_cons, hout, houts, exec, List.map_cons]

/-- `C` simulates `A` along a relation of states, an abstraction of inputs and one of outputs. -/
def Simulates (R : σ → τ → Prop) (inp : ι → κ) (out : ο → ρ) (C : Machine σ ι ο) (A : Machine τ κ ρ) :
    Prop :=
  ∀ ⦃s t i t' r⦄, R s t → A t (inp i) t' r → ∃ s' o, C s i s' o ∧ R s' t' ∧ out o = r

/-- A run of the abstract machine is a run of the concrete one. -/
theorem Simulates.run {R : σ → τ → Prop} {inp : ι → κ} {out : ο → ρ} {C : Machine σ ι ο}
    {A : Machine τ κ ρ} (h : Simulates R inp out C A) {is : List ι} {s : σ} {t t' : τ} {rs : List ρ}
    (hR : R s t) (hrun : A.Run t (is.map inp) t' rs) :
    ∃ s' os, C.Run s is s' os ∧ R s' t' ∧ os.map out = rs := by
  induction is generalizing s t rs with
  | nil =>
      cases hrun
      exact ⟨s, [], .nil s, hR, rfl⟩
  | cons i is ih =>
      rw [List.map_cons] at hrun
      cases hrun with
      | cons head tail =>
          obtain ⟨s1, o, hstep, hR1, hout⟩ := h hR head
          obtain ⟨s2, os, hsteps, hR2, houts⟩ := ih hR1 tail
          refine ⟨s2, o :: os, .cons hstep hsteps, hR2, ?_⟩
          rw [List.map_cons, hout, houts]

/-- Two levels of simulation make one. -/
theorem Simulates.trans {R : σ → τ → Prop} {S : τ → υ → Prop} {inp : ι → κ} {inp' : κ → μ} {out : ο → ρ}
    {out' : ρ → π} {C : Machine σ ι ο} {A : Machine τ κ ρ} {B : Machine υ μ π}
    (h : Simulates R inp out C A) (h' : Simulates S inp' out' A B) :
    Simulates (fun s u => ∃ t, R s t ∧ S t u) (inp' ∘ inp) (out' ∘ out) C B := by
  rintro s u i u' p ⟨t, hR, hS⟩ hstep
  obtain ⟨t', r, hstep', hS', hout'⟩ := h' hS hstep
  obtain ⟨s', o, hstep'', hR', hout⟩ := h hR hstep'
  refine ⟨s', o, hstep'', ⟨t', hR', hS'⟩, ?_⟩
  rw [Function.comp_apply, hout, hout']

end Simulation
