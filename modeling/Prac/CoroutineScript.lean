import Mathlib.Data.Finset.Lattice.Fold
import Mathlib.Data.Fintype.Basic
import Mathlib.Order.Lattice.Nat
import Prac.Coroutine

/-!
# The structure that two parties' coroutines share

* `Script` — the yields and the groups, with the lengths of the messages that each coroutine reads and
  writes in each segment; `Follows` — a coroutine that runs the script.
* `AcrossYields`, `QuietEnds` — a coroutine's reads after a yield have the lengths of its peer's writes
  before it; it reads nothing before its first yield and writes nothing after its last.
* `Script.traffic` — what passes over the channel in each round of a coroutine and of the groups that
  it runs; `traffic_paired` — a round reads what the peer's round before it wrote.
-/

namespace Prac

open Channel

variable {α : Type}

/-- The lengths of the messages that a coroutine reads and writes in a segment. -/
structure Ops where
  reads : List Nat
  writes : List Nat

/-- No messages. -/
def Ops.none : Ops := ⟨[], []⟩

/-- The structure of a coroutine: its yields and groups, and what either party reads and writes
itself up to the next of them. -/
inductive Script where
  | finish (ops : Player → Ops)
  | yield (ops : Player → Ops) (next : Script)
  | group (ops : Player → Ops) (n : Nat) (coroutines : Fin n → Script) (next : Script)

/-- The coroutine of party `p` runs the script, after reading and writing messages of the given
lengths in the current segment. -/
inductive Follows (p : Player) : List Nat → List Nat → Coro α → Script → Prop where
  | done {reads writes : List Nat} {ops : Player → Ops} (hops : ops p = ⟨reads, writes⟩) :
      Follows p reads writes .done (.finish ops)
  | write {reads writes : List Nat} {data : List α} {next : Coro α} {s : Script}
      (hnext : Follows p reads (writes ++ [data.length]) next s) :
      Follows p reads writes (.write data next) s
  | read {reads writes : List Nat} {len : Nat} {next : List α → Coro α} {s : Script}
      (hnext : ∀ data, data.length = len → Follows p (reads ++ [len]) writes (next data) s) :
      Follows p reads writes (.read len next) s
  | yield {reads writes : List Nat} {ops : Player → Ops} {next : Coro α} {s : Script}
      (hops : ops p = ⟨reads, writes⟩) (hnext : Follows p [] [] next s) :
      Follows p reads writes (.yield next) (.yield ops s)
  | group {reads writes : List Nat} {ops : Player → Ops} {n : Nat} {coroutines : Fin n → Coro α}
      {scripts : Fin n → Script} {next : Coro α} {s : Script} (hops : ops p = ⟨reads, writes⟩)
      (hcoroutines : ∀ i, Follows p [] [] (coroutines i) (scripts i)) (hnext : Follows p [] [] next s) :
      Follows p reads writes (.runCoroutines n coroutines next) (.group ops n scripts s)

namespace Script

/-- The number of segments.  A group yields once, and once more for every further segment of the
longest coroutine in it. -/
def rounds : Script → Nat
  | .finish _ => 1
  | .yield _ next => next.rounds + 1
  | .group _ _ coroutines next =>
    (Finset.univ.sup fun i => (coroutines i).rounds - 1) + next.rounds + 1

/-- The yields of a group after its first. -/
def extra {n : Nat} (coroutines : Fin n → Script) : Nat :=
  Finset.univ.sup fun i => (coroutines i).rounds - 1

/-- The messages of the coroutine itself in segment `j`: while it waits in `run_coroutines` it reads
and writes nothing. -/
def ops (p : Player) : Script → Nat → Ops
  | .finish ops, 0 => ops p
  | .finish _, _ + 1 => .none
  | .yield ops _, 0 => ops p
  | .yield _ next, j + 1 => next.ops p j
  | .group ops _ _ _, 0 => ops p
  | .group _ _ coroutines next, j + 1 =>
    if j < extra coroutines then .none else next.ops p (j - extra coroutines)

/-- The property holds of every coroutine of the groups that the script runs. -/
def Nested (P : Script → Prop) : Script → Prop
  | .finish _ => True
  | .yield _ next => next.Nested P
  | .group _ _ coroutines next =>
    (∀ i, P (coroutines i) ∧ (coroutines i).Nested P) ∧ next.Nested P

/-- The property holds of every coroutine of the tree. -/
def Everywhere (P : Script → Prop) (s : Script) : Prop := P s ∧ s.Nested P

/-- The reads in the segment after a yield have the same number, order and lengths as the peer's
writes in the segment before it. -/
def AcrossYields (s : Script) : Prop :=
  ∀ p j, j + 1 < s.rounds → (s.ops p (j + 1)).reads = (s.ops p.peer j).writes

/-- No reads before the first yield and no writes after the last. -/
def QuietEnds (s : Script) : Prop :=
  ∀ p, (s.ops p 0).reads = [] ∧ (s.ops p (s.rounds - 1)).writes = []

/-- The bytes of a coroutine's own messages. -/
def own (label : Label) (ops : Ops) : Traffic Label :=
  ⟨List.replicate ops.reads.sum label, List.replicate ops.writes.sum label⟩

/-- What passes over the channel in round `j` of the coroutine, with the groups that it runs. -/
def traffic (p : Player) (label : Label) (group : Nat) : Script → Nat → Traffic Label
  | .finish ops, 0 => own label (ops p)
  | .finish _, _ + 1 => .none
  | .yield ops _, 0 => own label (ops p)
  | .yield _ next, j + 1 => next.traffic p label group j
  | .group ops _ coroutines _, 0 =>
    (own label (ops p)).append
      (.concat fun i => (coroutines i).traffic p (label ++ [group, i.val]) 0 0)
  | .group _ _ coroutines next, j + 1 =>
    if j < extra coroutines then
      .concat fun i => (coroutines i).traffic p (label ++ [group, i.val]) 0 (j + 1)
    else next.traffic p label (group + 1) (j - extra coroutines)

theorem rounds_pos (s : Script) : 0 < s.rounds := by
  cases s with
  | finish ops => exact Nat.one_pos
  | yield ops next => exact Nat.succ_pos _
  | group ops n coroutines next => exact Nat.succ_pos _

/-- Nothing is read or written after the last segment. -/
theorem traffic_rounds (p : Player) (s : Script) : ∀ (label : Label) (group j : Nat),
    s.rounds ≤ j → s.traffic p label group j = .none := by
  induction s with
  | finish ops =>
      intro label group j hj
      cases j with
      | zero => exact absurd hj (by simp [rounds])
      | succ j => rfl
  | yield ops next ih =>
      intro label group j hj
      cases j with
      | zero => exact absurd hj (by simp [rounds])
      | succ j => exact ih label group j (Nat.le_of_succ_le_succ hj)
  | group ops n coroutines next _ ih =>
      intro label group j hj
      cases j with
      | zero => exact absurd hj (by simp [rounds])
      | succ j =>
          have hj' : extra coroutines + next.rounds ≤ j := Nat.le_of_succ_le_succ hj
          rw [traffic, if_neg (by omega)]
          exact ih label (group + 1) _ (by omega)

theorem ops_rounds (p : Player) (s : Script) : ∀ j, s.rounds ≤ j → s.ops p j = .none := by
  induction s with
  | finish ops =>
      intro j hj
      cases j with
      | zero => exact absurd hj (by simp [rounds])
      | succ j => rfl
  | yield ops next ih =>
      intro j hj
      cases j with
      | zero => exact absurd hj (by simp [rounds])
      | succ j => exact ih j (Nat.le_of_succ_le_succ hj)
  | group ops n coroutines next _ ih =>
      intro j hj
      cases j with
      | zero => exact absurd hj (by simp [rounds])
      | succ j =>
          have hj' : extra coroutines + next.rounds ≤ j := Nat.le_of_succ_le_succ hj
          rw [Script.ops, if_neg (by omega)]
          exact ih _ (by omega)

/-- Every read is in the segment after the peer's write. -/
def Paired (reads : Player → List Nat) (s : Script) : Prop :=
  ∀ p, (s.ops p 0).reads = reads p ∧ ∀ j, (s.ops p (j + 1)).reads = (s.ops p.peer j).writes

theorem paired_of_quiet {s : Script} (hacross : s.AcrossYields) (hquiet : s.QuietEnds) :
    s.Paired fun _ => [] := by
  intro p
  refine ⟨(hquiet p).1, fun j => ?_⟩
  by_cases hj : j + 1 < s.rounds
  · exact hacross p j hj
  · rw [s.ops_rounds p (j + 1) (by omega)]
    by_cases hlast : j = s.rounds - 1
    · rw [hlast, (hquiet p.peer).2]
      rfl
    · rw [s.ops_rounds p.peer j (by omega)]
      rfl

theorem Nested.imp {P Q : Script → Prop} {s : Script} (h : ∀ s, P s → Q s) (hs : s.Nested P) :
    s.Nested Q := by
  induction s with
  | finish ops => exact trivial
  | yield ops next ih => exact ih hs
  | group ops n coroutines next ihc ih =>
      exact ⟨fun i => ⟨h _ (hs.1 i).1, ihc i (hs.1 i).2⟩, ih hs.2⟩

theorem Nested.and {P Q : Script → Prop} {s : Script} (hP : s.Nested P) (hQ : s.Nested Q) :
    s.Nested fun s => P s ∧ Q s := by
  induction s with
  | finish ops => exact trivial
  | yield ops next ih => exact ih hP hQ
  | group ops n coroutines next ihc ih =>
      exact ⟨fun i => ⟨⟨(hP.1 i).1, (hQ.1 i).1⟩, ihc i (hP.1 i).2 (hQ.1 i).2⟩, ih hP.2 hQ.2⟩

theorem rounds_le_extra {n : Nat} (coroutines : Fin n → Script) (i : Fin n) :
    (coroutines i).rounds - 1 ≤ extra coroutines :=
  Finset.le_sup (f := fun i => (coroutines i).rounds - 1) (Finset.mem_univ i)

/-- Each round reads what the peer's round before it wrote, with the same coroutines in the same
order: those that finished early contribute nothing to either. -/
theorem traffic_paired (s : Script) : ∀ (reads : Player → List Nat) (label : Label) (group : Nat),
    s.Paired reads → s.Nested (Paired fun _ => []) → ∀ p,
      (s.traffic p label group 0).reads = List.replicate (reads p).sum label ∧
      ∀ j, (s.traffic p label group (j + 1)).reads = (s.traffic p.peer label group j).writes := by
  induction s with
  | finish ops =>
      intro reads label group hs _ p
      refine ⟨congrArg (fun l : List Nat => List.replicate l.sum label) (hs p).1, fun j => ?_⟩
      cases j with
      | zero => exact congrArg (fun l : List Nat => List.replicate l.sum label) ((hs p).2 0)
      | succ j => rfl
  | yield ops next ih =>
      intro reads label group hs hnested p
      have hnext : next.Paired fun p => (ops p.peer).writes :=
        fun p => ⟨(hs p).2 0, fun j => (hs p).2 (j + 1)⟩
      have hrec := ih _ label group hnext hnested
      refine ⟨congrArg (fun l : List Nat => List.replicate l.sum label) (hs p).1, fun j => ?_⟩
      cases j with
      | zero => exact (hrec p).1
      | succ j => exact (hrec p).2 j
  | group ops n coroutines next ihc ih =>
      intro reads label group hs hnested p
      -- the messages that the coroutine itself has pending when the group returns
      have hnext : next.Paired fun p =>
          if extra coroutines = 0 then (ops p.peer).writes else [] := by
        intro p
        refine ⟨?_, fun j => ?_⟩
        · have hj := (hs p).2 (extra coroutines)
          rw [Script.ops, if_neg (lt_irrefl _), Nat.sub_self] at hj
          rw [hj]
          cases hm : extra coroutines with
          | zero => simp [Script.ops]
          | succ m => simp [Script.ops, hm, Ops.none]
        · have hj := (hs p).2 (extra coroutines + 1 + j)
          have hsub : extra coroutines + 1 + j - extra coroutines = j + 1 := by omega
          have hsub' : extra coroutines + j - extra coroutines = j := by omega
          rw [Script.ops, if_neg (by omega), hsub,
            show extra coroutines + 1 + j = extra coroutines + j + 1 by omega, Script.ops,
            if_neg (by omega), hsub'] at hj
          exact hj
      have hrec := ih _ label (group + 1) hnext hnested.2
      have hcoroutine := fun i =>
        ihc i _ (label ++ [group, i.val]) 0 (hnested.1 i).1 (hnested.1 i).2
      have hover : ∀ q i, (coroutines i).traffic q (label ++ [group, i.val]) 0
          (extra coroutines + 1) = .none := by
        intro q i
        have hle := rounds_le_extra coroutines i
        exact (coroutines i).traffic_rounds q _ _ _ (by omega)
      have hlast : ∀ i, ((coroutines i).traffic p.peer (label ++ [group, i.val]) 0
          (extra coroutines)).writes = [] := by
        intro i
        rw [← (hcoroutine i p).2, hover p i]
        rfl
      refine ⟨?_, fun j => ?_⟩
      · have hown : (ops p).reads = reads p := (hs p).1
        simp only [traffic, own, Traffic.append_reads, Traffic.concat, hown]
        simp [(hcoroutine _ p).1]
      · cases j with
        | zero =>
            have hfirst : (if 0 < extra coroutines then Ops.none
                else next.ops p (0 - extra coroutines)).reads = (ops p.peer).writes := (hs p).2 0
            rw [traffic, traffic]
            by_cases hm : 0 < extra coroutines
            · have hown : (ops p.peer).writes = [] := by
                rw [if_pos hm] at hfirst
                exact hfirst.symm
              rw [if_pos hm]
              simp [Traffic.concat, own, hown, (hcoroutine _ p).2]
            · have hm0 : extra coroutines = 0 := by omega
              rw [if_neg hm, Nat.zero_sub, (hrec p).1, if_pos hm0]
              rw [hm0] at hlast
              simp [Traffic.concat, own, hlast]
        | succ j =>
            rw [traffic, traffic]
            by_cases hj : j + 1 < extra coroutines
            · rw [if_pos hj, if_pos (by omega)]
              simp [Traffic.concat, (hcoroutine _ p).2]
            · rw [if_neg hj]
              by_cases hlt : j < extra coroutines
              · have hm : extra coroutines = j + 1 := by omega
                rw [if_pos hlt, hm, Nat.sub_self, (hrec p).1, if_neg (by omega)]
                rw [hm] at hlast
                simp [Traffic.concat, hlast]
              · rw [if_neg hlt, Nat.sub_add_comm (by omega)]
                exact (hrec p).2 _

end Script

end Prac
