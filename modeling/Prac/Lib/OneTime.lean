import Mathlib.Data.List.Nodup
import Mathlib.Data.List.Range

/-!
# Tokens to be used once

* `Ledger`, `Taking` — computations that take numbered tokens and use them; the ledger records each use.
* `Extends` — what a computation adds to the ledger: uses of the tokens that it took itself.
* `Own`, `Once`, `Repeats` — computations that use their own tokens only, each at most once, or some
  token twice, with the rules for sequencing, for loops and for a token used right after it is taken.
* `Once.run`, `Repeats.run` — what follows for the ledger of a run.
-/

namespace OneTime

/-- The number of the next token, and the uses so far. -/
structure Ledger (ω : Type) where
  next : Nat
  uses : List (Nat × ω)

/-- The ledger before any token is taken. -/
def Ledger.empty {ω : Type} : Ledger ω := ⟨0, []⟩

/-- A computation that takes tokens and uses them. -/
abbrev Taking (ω α : Type) := StateM (Ledger ω) α

section Rules

variable {ω α β : Type}

/-- A fresh token. -/
def take : Taking ω Nat := fun s => (s.next, { s with next := s.next + 1 })

/-- A use of a token. -/
def use (token : Nat) (x : ω) : Taking ω Unit := fun s => ((), { s with uses := s.uses ++ [(token, x)] })

/-- `new` are the uses between two ledgers, all of tokens taken in between. -/
structure Extends (s s' : Ledger ω) (new : List (Nat × ω)) : Prop where
  next : s.next ≤ s'.next
  uses : s'.uses = s.uses ++ new
  own : ∀ u ∈ new, s.next ≤ u.1 ∧ u.1 < s'.next

theorem Extends.refl (s : Ledger ω) : Extends s s [] :=
  ⟨le_refl _, (List.append_nil _).symm, fun _ hu => nomatch hu⟩

theorem Extends.trans {s s' s'' : Ledger ω} {new new' : List (Nat × ω)} (h : Extends s s' new)
    (h' : Extends s' s'' new') : Extends s s'' (new ++ new') := by
  refine ⟨le_trans h.next h'.next, ?_, fun u hu => ?_⟩
  · rw [h'.uses, h.uses, List.append_assoc]
  · rcases List.mem_append.1 hu with hu | hu
    · exact ⟨(h.own u hu).1, lt_of_lt_of_le (h.own u hu).2 h'.next⟩
    · exact ⟨le_trans h.next (h'.own u hu).1, (h'.own u hu).2⟩

/-- Uses from two stretches are of different tokens. -/
theorem Extends.nodup_append {s s' s'' : Ledger ω} {new new' : List (Nat × ω)} (h : Extends s s' new)
    (h' : Extends s' s'' new') :
    ((new ++ new').map Prod.fst).Nodup ↔ (new.map Prod.fst).Nodup ∧ (new'.map Prod.fst).Nodup := by
  rw [List.map_append, List.nodup_append]
  refine ⟨fun hall => ⟨hall.1, hall.2.1⟩, fun hboth => ⟨hboth.1, hboth.2, ?_⟩⟩
  intro a ha b hb
  obtain ⟨u, hu, rfl⟩ := List.mem_map.1 ha
  obtain ⟨v, hv, rfl⟩ := List.mem_map.1 hb
  exact ne_of_lt (lt_of_lt_of_le (h.own u hu).2 (h'.own v hv).1)

/-- The computation uses its own tokens only. -/
def Own (m : Taking ω α) : Prop := ∀ s, ∃ new, Extends s (m s).2 new

/-- It uses each of them at most once. -/
def Once (m : Taking ω α) : Prop := ∀ s, ∃ new, Extends s (m s).2 new ∧ (new.map Prod.fst).Nodup

/-- It uses one of them twice. -/
def Repeats (m : Taking ω α) : Prop := ∀ s, ∃ new, Extends s (m s).2 new ∧ ¬(new.map Prod.fst).Nodup

theorem Once.own {m : Taking ω α} (h : Once m) : Own m := fun s =>
  let ⟨new, hnew, _⟩ := h s
  ⟨new, hnew⟩

theorem Repeats.own {m : Taking ω α} (h : Repeats m) : Own m := fun s =>
  let ⟨new, hnew, _⟩ := h s
  ⟨new, hnew⟩

theorem Once.pure (a : α) : Once (pure a : Taking ω α) := fun s => ⟨[], Extends.refl s, List.nodup_nil⟩

theorem Own.bind {m : Taking ω α} {f : α → Taking ω β} (hm : Own m) (hf : ∀ a, Own (f a)) :
    Own (m >>= f) := by
  intro s
  obtain ⟨new, hnew⟩ := hm s
  obtain ⟨new', hnew'⟩ := hf (m s).1 (m s).2
  exact ⟨_, hnew.trans hnew'⟩

theorem Once.bind {m : Taking ω α} {f : α → Taking ω β} (hm : Once m) (hf : ∀ a, Once (f a)) :
    Once (m >>= f) := by
  intro s
  obtain ⟨new, hnew, hnodup⟩ := hm s
  obtain ⟨new', hnew', hnodup'⟩ := hf (m s).1 (m s).2
  exact ⟨_, hnew.trans hnew', (hnew.nodup_append hnew').2 ⟨hnodup, hnodup'⟩⟩

theorem Repeats.bind_left {m : Taking ω α} {f : α → Taking ω β} (hm : Repeats m)
    (hf : ∀ a, Own (f a)) : Repeats (m >>= f) := by
  intro s
  obtain ⟨new, hnew, hdup⟩ := hm s
  obtain ⟨new', hnew'⟩ := hf (m s).1 (m s).2
  exact ⟨_, hnew.trans hnew', fun hall => hdup ((hnew.nodup_append hnew').1 hall).1⟩

theorem Repeats.bind_right {m : Taking ω α} {f : α → Taking ω β} (hm : Own m)
    (hf : ∀ a, Repeats (f a)) : Repeats (m >>= f) := by
  intro s
  obtain ⟨new, hnew⟩ := hm s
  obtain ⟨new', hnew', hdup⟩ := hf (m s).1 (m s).2
  exact ⟨_, hnew.trans hnew', fun hall => hdup ((hnew.nodup_append hnew').1 hall).2⟩

theorem Once.map {m : Taking ω α} (hm : Once m) (f : α → β) : Once (f <$> m) := hm

theorem Own.map {m : Taking ω α} (hm : Own m) (f : α → β) : Own (f <$> m) := hm

theorem Repeats.map {m : Taking ω α} (hm : Repeats m) (f : α → β) : Repeats (f <$> m) := hm

/-! ## Tokens used right after they are taken -/

/-- The computation makes one use of the token and nothing else. -/
def IsUse (token : Nat) (m : Taking ω α) : Prop :=
  ∀ s, ∃ x, (m s).2 = { s with uses := s.uses ++ [(token, x)] }

theorem Once.take_use {m : Nat → Taking ω α} {k : α → Taking ω β} (hm : ∀ t, IsUse t (m t))
    (hk : ∀ a, Once (k a)) : Once (take >>= fun t => m t >>= k) := by
  have hone : Once (take >>= m) := by
    intro s
    obtain ⟨x, hx⟩ := hm s.next { s with next := s.next + 1 }
    have hs' : ((take >>= m) s).2 = { next := s.next + 1, uses := s.uses ++ [(s.next, x)] } := hx
    refine ⟨[(s.next, x)], ⟨?_, ?_, fun u hu => ?_⟩, List.nodup_singleton _⟩
    · rw [hs']
      exact Nat.le_succ _
    · rw [hs']
    · rw [hs', List.mem_singleton.1 hu]
      exact ⟨le_refl _, Nat.lt_succ_self _⟩
  exact hone.bind hk

/-- The computation uses the token and its own ones. -/
def OwnOr (token : Nat) (m : Taking ω α) : Prop := ∀ s, ∃ new : List (Nat × ω),
  s.next ≤ (m s).2.next ∧ (m s).2.uses = s.uses ++ new ∧
    ∀ u ∈ new, u.1 = token ∨ s.next ≤ u.1 ∧ u.1 < (m s).2.next

theorem Own.ownOr {m : Taking ω α} (h : Own m) (token : Nat) : OwnOr token m := by
  intro s
  obtain ⟨new, hnew⟩ := h s
  exact ⟨new, hnew.next, hnew.uses, fun u hu => .inr (hnew.own u hu)⟩

theorem OwnOr.use {token : Nat} {m : Taking ω α} {k : α → Taking ω β} (hm : IsUse token m)
    (hk : ∀ a, OwnOr token (k a)) : OwnOr token (m >>= k) := by
  intro s
  obtain ⟨x, hx⟩ := hm s
  obtain ⟨new, hnext, huses, hown⟩ := hk (m s).1 (m s).2
  rw [hx] at hnext huses hown
  have hs' : ((m >>= k) s).2 = (k (m s).1 { s with uses := s.uses ++ [(token, x)] }).2 := by
    rw [← hx]
    rfl
  rw [hs']
  refine ⟨(token, x) :: new, hnext, ?_, fun u hu => ?_⟩
  · rw [huses, List.append_assoc, List.singleton_append]
  · rcases List.mem_cons.1 hu with rfl | hu
    · exact .inl rfl
    · exact hown u hu

/-- A token used twice. -/
theorem Repeats.take_use_use {γ : Type} {m : Nat → Taking ω α} {m' : Nat → α → Taking ω β}
    {k : Nat → α → β → Taking ω γ} (hm : ∀ t, IsUse t (m t)) (hm' : ∀ t a, IsUse t (m' t a))
    (hk : ∀ t a b, OwnOr t (k t a b)) :
    Repeats (take >>= fun t => m t >>= fun a => m' t a >>= k t a) := by
  intro s
  let s₁ : Ledger ω := { s with next := s.next + 1 }
  obtain ⟨x, hx⟩ := hm s.next s₁
  obtain ⟨y, hy⟩ := hm' s.next (m s.next s₁).1 (m s.next s₁).2
  obtain ⟨new, hnext, huses, hown⟩ := hk s.next (m s.next s₁).1
    (m' s.next (m s.next s₁).1 (m s.next s₁).2).1 (m' s.next (m s.next s₁).1 (m s.next s₁).2).2
  have hs' : ((take >>= fun t => m t >>= fun a => m' t a >>= k t a) s).2 = (k s.next (m s.next s₁).1
      (m' s.next (m s.next s₁).1 (m s.next s₁).2).1 (m' s.next (m s.next s₁).1 (m s.next s₁).2).2).2 := rfl
  rw [← hs', hy, hx] at hnext huses hown
  refine ⟨(s.next, x) :: (s.next, y) :: new, ⟨?_, ?_, fun u hu => ?_⟩, ?_⟩
  · exact le_trans (Nat.le_succ _) hnext
  · rw [huses, List.append_assoc, List.append_assoc]
    rfl
  · have hlt : s.next < _ := lt_of_lt_of_le (Nat.lt_succ_self _) hnext
    rcases List.mem_cons.1 hu with rfl | hu
    · exact ⟨le_refl _, hlt⟩
    · rcases List.mem_cons.1 hu with rfl | hu
      · exact ⟨le_refl _, hlt⟩
      · rcases hown u hu with hu | ⟨hle, hu⟩
        · rw [hu]
          exact ⟨le_refl _, hlt⟩
        · exact ⟨le_trans (Nat.le_succ _) hle, hu⟩
  · rw [List.map_cons, List.map_cons, List.nodup_cons]
    exact fun hall => hall.1 List.mem_cons_self

/-! ## Loops -/

theorem Once.foldlM {σ : Type} {body : σ → Nat → Taking ω σ} (h : ∀ s i, Once (body s i)) :
    ∀ (l : List Nat) (s : σ), Once (l.foldlM body s)
  | [], s => Once.pure s
  | i :: l, s => (h s i).bind fun s => Once.foldlM h l s

theorem foldlM_fst {σ : Type} {body : σ → Nat → Taking ω σ} {body' : σ → Nat → σ}
    (h : ∀ s i ledger, (body s i ledger).1 = body' s i) : ∀ (l : List Nat) (s : σ) (ledger : Ledger ω),
      (l.foldlM body s ledger).1 = l.foldl body' s
  | [], _, _ => rfl
  | i :: l, s, ledger => by
    have hstep : ((i :: l).foldlM body s ledger) = l.foldlM body (body s i ledger).1 (body s i ledger).2 :=
      rfl
    rw [hstep, foldlM_fst h l, h, List.foldl_cons]

/-! ## Runs -/

/-- The uses recorded in a run of `m` from the empty ledger. -/
def usesOf (m : Taking ω α) : List (Nat × ω) := (m Ledger.empty).2.uses

theorem Once.run {m : Taking ω α} (h : Once m) : ((usesOf m).map Prod.fst).Nodup := by
  obtain ⟨new, hnew, hnodup⟩ := h Ledger.empty
  have huses : usesOf m = new := hnew.uses
  rwa [huses]

theorem Repeats.run {m : Taking ω α} (h : Repeats m) : ¬((usesOf m).map Prod.fst).Nodup := by
  obtain ⟨new, hnew, hdup⟩ := h Ledger.empty
  have huses : usesOf m = new := hnew.uses
  rwa [huses]

/-- A sequence of computations. -/
def inOrder {ι : Type} (step : ι → Taking ω Unit) : List ι → Taking ω Unit
  | [] => pure ()
  | i :: l => step i >>= fun _ => inOrder step l

/-- Where each computation uses its tokens at most once or repeats one, a sequence of them uses every
token at most once iff none of them repeats one. -/
theorem nodup_inOrder_iff {ι : Type} {step : ι → Taking ω Unit} {bad : ι → Prop}
    (honce : ∀ i, ¬bad i → Once (step i)) (hrepeats : ∀ i, bad i → Repeats (step i)) (l : List ι) :
    ((usesOf (inOrder step l)).map Prod.fst).Nodup ↔ ∀ i ∈ l, ¬bad i := by
  have hown : ∀ i, Own (step i) := by
    intro i
    by_cases hbad : bad i
    · exact (hrepeats i hbad).own
    · exact (honce i hbad).own
  have hall : ((∀ i ∈ l, ¬bad i) → Once (inOrder step l)) ∧ Own (inOrder step l) ∧
      ((∃ i ∈ l, bad i) → Repeats (inOrder step l)) := by
    induction l with
    | nil => exact ⟨fun _ => Once.pure (), (Once.pure ()).own, fun h => by simp at h⟩
    | cons i l ih =>
        obtain ⟨hl, hlown, hlrep⟩ := ih
        refine ⟨fun h => ?_, (hown i).bind fun _ => hlown, ?_⟩
        · exact (honce i (h i (by simp))).bind fun _ => hl fun j hj => h j (List.mem_cons_of_mem _ hj)
        · rintro ⟨j, hj, hbad⟩
          rcases List.mem_cons.1 hj with rfl | hj
          · exact (hrepeats j hbad).bind_left fun _ => hlown
          · exact Repeats.bind_right (hown i) fun _ => hlrep ⟨j, hj, hbad⟩
  constructor
  · intro hnodup i hi hbad
    exact (hall.2.2 ⟨i, hi, hbad⟩).run hnodup
  · intro h
    exact (hall.1 h).run

end Rules

end OneTime
