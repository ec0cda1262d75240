import Mathlib.Data.Set.Function
import Mathlib.Data.Set.Lattice
import Mathlib.Order.CompletePartialOrder
import Mathlib.Logic.Relation

/-!
# Coroutines on shared memory

* `CoroTree` — a tree of coroutines: segments that run without interruption, sequences, and pairs that run in
  parallel; `Step` is one segment of any of them, `Steps` any interleaving, `run` the one from left to right.
* `Ensures` — every interleaving can be completed, with a given outcome.
* `RaceFree` — segments of parallel branches commute.  Then every interleaving ends where `run` does
  (`RaceFree.ensures`).
* `Sim` — two trees of one shape whose segments keep a relation of states; every interleaving of one is an
  interleaving of the other (`Sim.steps`, `Sim.ensures`).
* `OnCells` — segments that read and write the cells of a set only; segments on disjoint sets commute
  (`OnCells.commute`).
-/

namespace Concurrent

open Relation

/-- A tree of coroutines.  What follows a segment may depend on the state that the segment starts in. -/
inductive CoroTree (σ : Type*) where
  | done
  | seg (act : σ → σ) (next : σ → CoroTree σ)
  | seq (first second : CoroTree σ)
  | par (left right : CoroTree σ)

namespace CoroTree

variable {σ τ : Type*}

/-- One segment of one of the coroutines. -/
inductive Step : CoroTree σ → σ → CoroTree σ → σ → Prop where
  | seg (act : σ → σ) (next : σ → CoroTree σ) (s : σ) : Step (seg act next) s (next s) (act s)
  | seq {c c' : CoroTree σ} {s s' : σ} (d : CoroTree σ) (h : Step c s c' s') : Step (seq c d) s (seq c' d) s'
  | seqDone (d : CoroTree σ) (s : σ) : Step (seq done d) s d s
  | parLeft {c c' : CoroTree σ} {s s' : σ} (d : CoroTree σ) (h : Step c s c' s') : Step (par c d) s (par c' d) s'
  | parRight {d d' : CoroTree σ} {s s' : σ} (c : CoroTree σ) (h : Step d s d' s') : Step (par c d) s (par c d') s'
  | parDone (s : σ) : Step (par done done) s done s

/-- An interleaving, complete or not. -/
def Steps : CoroTree σ × σ → CoroTree σ × σ → Prop := ReflTransGen fun x y => Step x.1 x.2 y.1 y.2

/-- The interleaving that runs parallel branches one after the other. -/
def run : CoroTree σ → σ → σ
  | done, s => s
  | seg act next, s => (next s).run (act s)
  | seq c d, s => d.run (c.run s)
  | par c d, s => d.run (c.run s)

/-! ## Termination -/

/-- Until everything is done, there is a segment to run. -/
theorem Step.exists_of_ne_done {c : CoroTree σ} (h : c ≠ done) (s : σ) : ∃ c' s', Step c s c' s' := by
  induction c with
  | done => exact absurd rfl h
  | seg act next => exact ⟨_, _, .seg act next s⟩
  | seq c d ihc _ =>
      by_cases hc : c = done
      · exact ⟨d, s, hc ▸ .seqDone d s⟩
      · obtain ⟨c', s', hstep⟩ := ihc hc
        exact ⟨_, _, .seq d hstep⟩
  | par c d ihc ihd =>
      by_cases hc : c = done
      · by_cases hd : d = done
        · subst hc hd
          exact ⟨done, s, .parDone s⟩
        · obtain ⟨d', s', hstep⟩ := ihd hd
          exact ⟨_, _, .parRight c hstep⟩
      · obtain ⟨c', s', hstep⟩ := ihc hc
        exact ⟨_, _, .parLeft d hstep⟩

/-- What may be left after a segment. -/
def Rest (c' c : CoroTree σ) : Prop := ∃ s s', Step c s c' s'

theorem acc_seq {c d : CoroTree σ} (hc : Acc Rest c) (hd : Acc Rest d) : Acc Rest (seq c d) := by
  induction hc with
  | intro c _ ih =>
      refine ⟨_, ?_⟩
      rintro _ ⟨s, s', hstep⟩
      cases hstep with
      | seq _ h => exact ih _ ⟨s, s', h⟩
      | seqDone => exact hd

theorem acc_par {c d : CoroTree σ} (hc : Acc Rest c) (hd : Acc Rest d) : Acc Rest (par c d) := by
  induction hc generalizing d with
  | intro c hc ihc =>
      induction hd with
      | intro d hd ihd =>
          refine ⟨_, ?_⟩
          rintro _ ⟨s, s', hstep⟩
          cases hstep with
          | parLeft _ h => exact ihc _ ⟨s, s', h⟩ ⟨d, hd⟩
          | parRight _ h => exact ihd _ ⟨s, s', h⟩
          | parDone => exact ⟨_, fun _ ⟨_, _, hstep⟩ => nomatch hstep⟩

/-- No interleaving goes on for ever. -/
theorem rest_wellFounded : WellFounded (Rest : CoroTree σ → CoroTree σ → Prop) := by
  refine ⟨fun c => ?_⟩
  induction c with
  | done => exact ⟨_, fun _ ⟨_, _, hstep⟩ => nomatch hstep⟩
  | seg act next ih =>
      refine ⟨_, ?_⟩
      rintro _ ⟨s, s', hstep⟩
      cases hstep
      exact ih s
  | seq c d ihc ihd => exact acc_seq ihc ihd
  | par c d ihc ihd => exact acc_par ihc ihd

theorem Steps.exists_done (c : CoroTree σ) (s : σ) : ∃ s', Steps (c, s) (done, s') := by
  induction c using rest_wellFounded.induction generalizing s with
  | _ c ih =>
      by_cases hc : c = done
      · exact ⟨s, hc ▸ .refl⟩
      · obtain ⟨c', s', hstep⟩ := Step.exists_of_ne_done hc s
        obtain ⟨s'', hsteps⟩ := ih c' ⟨s, s', hstep⟩ s'
        exact ⟨s'', hsteps.head hstep⟩

/-! ## Races -/

/-- Every segment, with what follows it, is of a kind. -/
def Within (P : (σ → σ) → (σ → CoroTree σ) → Prop) : CoroTree σ → Prop
  | done => True
  | seg act next => P act next ∧ ∀ s, Within P (next s)
  | seq c d => Within P c ∧ Within P d
  | par c d => Within P c ∧ Within P d

/-- Segments of the two kinds can be exchanged: neither sees what the other does. -/
def Commute (P Q : (σ → σ) → (σ → CoroTree σ) → Prop) : Prop :=
  ∀ ⦃f k g l⦄, P f k → Q g l → ∀ s, f (g s) = g (f s) ∧ k (g s) = k s ∧ l (f s) = l s

/-- Parallel branches have segments that commute. -/
def RaceFree : CoroTree σ → Prop
  | done => True
  | seg _ next => ∀ s, RaceFree (next s)
  | seq c d => RaceFree c ∧ RaceFree d
  | par c d => RaceFree c ∧ RaceFree d ∧ ∃ P Q, Commute P Q ∧ Within P c ∧ Within Q d

variable {P Q : (σ → σ) → (σ → CoroTree σ) → Prop}

theorem Within.mono (h : ∀ act next, P act next → Q act next) {c : CoroTree σ} (hc : Within P c) : Within Q c := by
  induction c with
  | done => trivial
  | seg act next ih => exact ⟨h _ _ hc.1, fun s => ih s (hc.2 s)⟩
  | seq c d ihc ihd => exact ⟨ihc hc.1, ihd hc.2⟩
  | par c d ihc ihd => exact ⟨ihc hc.1, ihd hc.2⟩

theorem Within.step {c c' : CoroTree σ} {s s' : σ} (hc : Within P c) (h : Step c s c' s') : Within P c' := by
  induction h with
  | seg act next s => exact hc.2 s
  | seq d _ ih => exact ⟨ih hc.1, hc.2⟩
  | seqDone d s => exact hc.2
  | parLeft d _ ih => exact ⟨ih hc.1, hc.2⟩
  | parRight c _ ih => exact ⟨hc.1, ih hc.2⟩
  | parDone s => trivial

/-- A segment that commutes with all of a coroutine's can be run before it or after it. -/
theorem Within.run_comm {c : CoroTree σ} (hc : Within P c) {g : σ → σ} {l : σ → CoroTree σ} (hcomm : Commute P Q)
    (hg : Q g l) (s : σ) : c.run (g s) = g (c.run s) ∧ l (c.run s) = l s := by
  induction c generalizing s with
  | done => exact ⟨rfl, rfl⟩
  | seg act next ih =>
      obtain ⟨hact, hnext, hl⟩ := hcomm hc.1 hg s
      obtain ⟨hrun, hl'⟩ := ih s (hc.2 s) (act s)
      rw [run, run, hact, hnext]
      exact ⟨hrun, hl'.trans hl⟩
  | seq c d ihc ihd =>
      rw [run, run, (ihc hc.1 s).1, (ihd hc.2 _).1, (ihd hc.2 _).2]
      exact ⟨rfl, (ihc hc.1 s).2⟩
  | par c d ihc ihd =>
      rw [run, run, (ihc hc.1 s).1, (ihd hc.2 _).1, (ihd hc.2 _).2]
      exact ⟨rfl, (ihc hc.1 s).2⟩

/-- A step can be made after the whole of a coroutine that it commutes with, to the same effect. -/
theorem Within.step_comm {c d d' : CoroTree σ} {s s' : σ} (hc : Within P c) (hd : Within Q d)
    (hcomm : Commute P Q) (h : Step d s d' s') : Step d (c.run s) d' (c.run s') := by
  induction h with
  | seg act next s =>
      obtain ⟨hrun, hnext⟩ := hc.run_comm hcomm hd.1 s
      rw [hrun, ← hnext]
      exact .seg act next _
  | seq e _ ih => exact .seq e (ih hd.1)
  | seqDone e s => exact .seqDone e _
  | parLeft e _ ih => exact .parLeft e (ih hd.1)
  | parRight e _ ih => exact .parRight e (ih hd.2)
  | parDone s => exact .parDone _

/-- A step leaves a tree without races, and does not change where it ends. -/
theorem RaceFree.step {c c' : CoroTree σ} {s s' : σ} (hc : RaceFree c) (h : Step c s c' s') :
    RaceFree c' ∧ c'.run s' = c.run s := by
  induction c generalizing c' s s' with
  | done => cases h
  | seg act next _ =>
      cases h
      exact ⟨hc s, rfl⟩
  | seq c d ihc _ =>
      cases h with
      | seq _ h =>
          obtain ⟨hfree, hrun⟩ := ihc hc.1 h
          exact ⟨⟨hfree, hc.2⟩, congrArg d.run hrun⟩
      | seqDone => exact ⟨hc.2, rfl⟩
  | par c d ihc ihd =>
      obtain ⟨hleft, hright, P, Q, hcomm, hP, hQ⟩ := hc
      cases h with
      | parLeft _ h =>
          obtain ⟨hfree, hrun⟩ := ihc hleft h
          exact ⟨⟨hfree, hright, P, Q, hcomm, hP.step h, hQ⟩, congrArg d.run hrun⟩
      | parRight _ h =>
          -- the step is made after the left branch instead of before it
          obtain ⟨hfree, hrun⟩ := ihd hright (hP.step_comm hQ hcomm h)
          exact ⟨⟨hleft, hfree, P, Q, hcomm, hP, hQ.step h⟩, hrun⟩
      | parDone => exact ⟨trivial, rfl⟩

theorem RaceFree.steps {x y : CoroTree σ × σ} (hx : RaceFree x.1) (h : Steps x y) :
    RaceFree y.1 ∧ y.1.run y.2 = x.1.run x.2 := by
  induction h with
  | refl => exact ⟨hx, rfl⟩
  | tail _ hstep ih =>
      obtain ⟨hfree, hrun⟩ := ih.1.step hstep
      exact ⟨hfree, hrun.trans ih.2⟩

/-- Every interleaving can be completed, and every complete one ends as `post` says. -/
def Ensures (c : CoroTree σ) (s : σ) (post : σ → Prop) : Prop :=
  ∀ c' s', Steps (c, s) (c', s') →
    (∃ s'', Steps (c', s') (done, s'')) ∧ ∀ s'', Steps (c', s') (done, s'') → post s''

theorem Ensures.mono {c : CoroTree σ} {s : σ} {post post' : σ → Prop} (h : Ensures c s post)
    (himp : ∀ s, post s → post' s) : Ensures c s post' := fun c' s' hsteps =>
  ⟨(h c' s' hsteps).1, fun s'' hdone => himp s'' ((h c' s' hsteps).2 s'' hdone)⟩

/-- **Without races the schedule does not matter**: every complete interleaving ends where `run` does. -/
theorem RaceFree.ensures {c : CoroTree σ} (hc : RaceFree c) (s : σ) : Ensures c s fun s'' => s'' = c.run s := by
  intro c' s' h
  exact ⟨Steps.exists_done c' s', fun s'' h' => (RaceFree.steps (x := (c, s)) hc (h.trans h')).2⟩

/-! ## Simulation -/

/-- Two trees of one shape, whose segments keep a relation of states. -/
inductive Sim (R : σ → τ → Prop) : CoroTree σ → CoroTree τ → Prop where
  | ended : Sim R done done
  | seg {act : σ → σ} {next : σ → CoroTree σ} {act' : τ → τ} {next' : τ → CoroTree τ}
      (keeps : ∀ s t, R s t → R (act s) (act' t)) (rest : ∀ s t, R s t → Sim R (next s) (next' t)) :
      Sim R (seg act next) (seg act' next')
  | seq {c d : CoroTree σ} {c' d' : CoroTree τ} (first : Sim R c c') (second : Sim R d d') :
      Sim R (seq c d) (seq c' d')
  | par {c d : CoroTree σ} {c' d' : CoroTree τ} (left : Sim R c c') (right : Sim R d d') :
      Sim R (par c d) (par c' d')

variable {R : σ → τ → Prop}

theorem Sim.step {c c' : CoroTree σ} {d : CoroTree τ} {s s' : σ} {t : τ} (hsim : Sim R c d) (hR : R s t)
    (h : Step c s c' s') : ∃ d' t', Step d t d' t' ∧ Sim R c' d' ∧ R s' t' := by
  induction hsim generalizing c' s' with
  | ended => cases h
  | seg keeps rest _ =>
      cases h
      exact ⟨_, _, .seg .., rest s t hR, keeps s t hR⟩
  | seq first second ihc _ =>
      cases h with
      | seq _ h =>
          obtain ⟨c1, t1, hstep, hsim, hR⟩ := ihc h
          exact ⟨_, _, .seq _ hstep, .seq hsim second, hR⟩
      | seqDone =>
          cases first
          exact ⟨_, _, .seqDone .., second, hR⟩
  | par left right ihc ihd =>
      cases h with
      | parLeft _ h =>
          obtain ⟨c1, t1, hstep, hsim, hR⟩ := ihc h
          exact ⟨_, _, .parLeft _ hstep, .par hsim right, hR⟩
      | parRight _ h =>
          obtain ⟨d1, t1, hstep, hsim, hR⟩ := ihd h
          exact ⟨_, _, .parRight _ hstep, .par left hsim, hR⟩
      | parDone =>
          cases left
          cases right
          exact ⟨_, _, .parDone .., .ended, hR⟩

/-- Every interleaving of the one tree is an interleaving of the other. -/
theorem Sim.steps {x y : CoroTree σ × σ} {d : CoroTree τ} {t : τ} (hsim : Sim R x.1 d) (hR : R x.2 t) (h : Steps x y) :
    ∃ d' t', Steps (d, t) (d', t') ∧ Sim R y.1 d' ∧ R y.2 t' := by
  induction h with
  | refl => exact ⟨d, t, .refl, hsim, hR⟩
  | tail _ hstep ih =>
      obtain ⟨d1, t1, hsteps, hsim1, hR1⟩ := ih
      obtain ⟨d2, t2, hstep2, hsim2, hR2⟩ := hsim1.step hR1 hstep
      exact ⟨d2, t2, hsteps.tail hstep2, hsim2, hR2⟩

/-- **A tree that simulates one without races** ends in a state related to the one where the other ends. -/
theorem Sim.ensures {c : CoroTree σ} {d : CoroTree τ} {s : σ} {t : τ} (hsim : Sim R c d) (hd : RaceFree d)
    (hR : R s t) : Ensures c s fun s'' => R s'' (d.run t) := by
  intro c' s' h
  refine ⟨Steps.exists_done c' s', fun s'' h' => ?_⟩
  obtain ⟨d', t', hsteps, hsim', hR'⟩ := Sim.steps (x := (c, s)) hsim hR (h.trans h')
  cases hsim'
  rwa [(hd.ensures t d t .refl).2 t' hsteps] at hR'

/-! ## Several branches -/

/-- `run_coroutines` on a list. -/
def parAll : List (CoroTree σ) → CoroTree σ
  | [] => done
  | c :: cs => par c (parAll cs)

theorem run_parAll (cs : List (CoroTree σ)) (s : σ) : (parAll cs).run s = cs.foldl (fun s c => c.run s) s := by
  induction cs generalizing s with
  | nil => rfl
  | cons c cs ih => exact ih (c.run s)

theorem Within.parAll {cs : List (CoroTree σ)} (h : ∀ c ∈ cs, Within P c) : Within P (parAll cs) := by
  induction cs with
  | nil => trivial
  | cons c cs ih => exact ⟨h c List.mem_cons_self, ih fun d hd => h d (List.mem_cons_of_mem c hd)⟩

theorem Sim.parAll {ι : Type*} {f : ι → CoroTree σ} {g : ι → CoroTree τ} {is : List ι}
    (h : ∀ i ∈ is, Sim R (f i) (g i)) : Sim R (parAll (is.map f)) (parAll (is.map g)) := by
  induction is with
  | nil => exact .ended
  | cons i is ih => exact .par (h i List.mem_cons_self) (ih fun j hj => h j (List.mem_cons_of_mem i hj))

/-- Branches whose segments commute pairwise have no races. -/
theorem RaceFree.parAll {κ : Type*} {f : κ → CoroTree σ} {P : κ → (σ → σ) → (σ → CoroTree σ) → Prop} {is : List κ}
    (hfree : ∀ i ∈ is, RaceFree (f i)) (hwithin : ∀ i ∈ is, Within (P i) (f i))
    (hcomm : is.Pairwise fun i j => Commute (P i) (P j)) : RaceFree (parAll (is.map f)) := by
  induction is with
  | nil => trivial
  | cons i is ih =>
      rw [List.pairwise_cons] at hcomm
      refine ⟨hfree i List.mem_cons_self, ih (fun j hj => hfree j (List.mem_cons_of_mem i hj))
        (fun j hj => hwithin j (List.mem_cons_of_mem i hj)) hcomm.2,
        P i, fun act next => ∃ j ∈ is, P j act next, ?_, hwithin i List.mem_cons_self, ?_⟩
      · rintro act next act' next' h ⟨j, hj, h'⟩
        exact hcomm.1 j hj h h'
      · refine Within.parAll fun c hc => ?_
        obtain ⟨j, hj, rfl⟩ := List.mem_map.mp hc
        exact (hwithin j (List.mem_cons_of_mem i hj)).mono fun _ _ h => ⟨j, hj, h⟩

/-! ## Cells -/

variable {ι α : Type*} {A B : Set ι}

/-- A segment that reads and writes the cells of `A` only. -/
structure OnCells (A : Set ι) (act : (ι → α) → ι → α) (next : (ι → α) → CoroTree (ι → α)) : Prop where
  keeps : ∀ s, Set.EqOn (act s) s Aᶜ
  congr : ∀ s t, Set.EqOn s t A → Set.EqOn (act s) (act t) A
  next_congr : ∀ s t, Set.EqOn s t A → next s = next t

theorem OnCells.mono (hAB : A ⊆ B) {act : (ι → α) → ι → α} {next : (ι → α) → CoroTree (ι → α)}
    (h : OnCells A act next) : OnCells B act next where
  keeps s := (h.keeps s).mono (Set.compl_subset_compl.mpr hAB)
  congr s t heq i hi := by
    by_cases hA : i ∈ A
    · exact h.congr s t (heq.mono hAB) hA
    · rw [h.keeps s hA, h.keeps t hA, heq hi]
  next_congr s t heq := h.next_congr s t (heq.mono hAB)

/-- Segments on disjoint sets of cells commute. -/
theorem OnCells.commute (hAB : Disjoint A B) : Commute (OnCells (α := α) A) (OnCells B) := by
  intro f k g l hf hg s
  have hA {i : ι} (hi : i ∈ A) : i ∈ Bᶜ := Set.disjoint_left.mp hAB hi
  have hB {i : ι} (hi : i ∈ B) : i ∈ Aᶜ := Set.disjoint_right.mp hAB hi
  have hgs : Set.EqOn (g s) s A := fun i hi => hg.keeps s (hA hi)
  have hfs : Set.EqOn (f s) s B := fun i hi => hf.keeps s (hB hi)
  refine ⟨funext fun i => ?_, hf.next_congr _ _ hgs, hg.next_congr _ _ hfs⟩
  by_cases hiA : i ∈ A
  · rw [hf.congr _ _ hgs hiA, hg.keeps _ (hA hiA)]
  · rw [hf.keeps _ hiA]
    by_cases hiB : i ∈ B
    · rw [hg.congr _ _ hfs hiB]
    · rw [hg.keeps _ hiB, hg.keeps _ hiB, hf.keeps _ hiA]

end CoroTree

end Concurrent
