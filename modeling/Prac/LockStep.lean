import Prac.CoroutineScript

/-!
# Coroutine groups keep the channels aligned

* `Remains` — the rounds that are left of a run, with what passes over the channel in each of them;
  `start_meets`, `resume_meets` — a run moves exactly this.
* `Aligned` — every byte read is the one that the same coroutine of the peer wrote, in the segment
  before.
* `lock_step` — every state of every interleaving is aligned.
* `siblings_misaligned` — it need not be when a coroutine writes after its last yield.
-/

namespace Prac

open Channel

variable {α : Type}

/-- `rounds` more rounds of the run follow the structure of some script, with this traffic. -/
def Remains (p : Player) (label : Label) : Run α → Nat → (Nat → Traffic Label) → Prop
  | .finished, rounds, traffic => rounds = 0 ∧ ∀ j, traffic j = .none
  | .paused group next, rounds, traffic =>
    ∃ s, Follows p [] [] next s ∧ rounds = s.rounds ∧ ∀ j, traffic j = s.traffic p label group j
  | .running group n coroutines next, rounds, traffic =>
    ∃ (s : Script) (left : Fin n → Nat) (each : Fin n → Nat → Traffic Label),
      Follows p [] [] next s ∧
      (∀ i, Remains p (label ++ [group, i.val]) (coroutines i) (left i) (each i)) ∧
      rounds = Finset.univ.sup left + s.rounds ∧
      ∀ j, traffic j = if j < Finset.univ.sup left then .concat fun i => each i j
        else s.traffic p label (group + 1) (j - Finset.univ.sup left)

theorem Remains.alive_iff {p : Player} {label : Label} {run : Run α} {rounds : Nat}
    {traffic : Nat → Traffic Label} (h : Remains p label run rounds traffic) :
    run.alive = true ↔ 0 < rounds := by
  cases run with
  | finished =>
      obtain ⟨rfl, _⟩ := h
      simp [Run.alive]
  | paused group next =>
      obtain ⟨s, _, rfl, _⟩ := h
      simp [Run.alive, s.rounds_pos]
  | running group n coroutines next =>
      obtain ⟨s, left, each, _, _, rfl, _⟩ := h
      simp [Run.alive, s.rounds_pos]

theorem own_append_reads (label : Label) (reads writes : List Nat) (len : Nat) :
    Script.own label ⟨reads ++ [len], writes⟩ =
      (Script.own label ⟨reads, writes⟩).append ⟨List.replicate len label, []⟩ := by
  simp [Script.own, Traffic.append]

theorem own_append_writes (label : Label) (reads writes : List Nat) (len : Nat) :
    Script.own label ⟨reads, writes ++ [len]⟩ =
      (Script.own label ⟨reads, writes⟩).append ⟨[], List.replicate len label⟩ := by
  simp [Script.own, Traffic.append]

theorem own_none (label : Label) : Script.own label ⟨[], []⟩ = .none := rfl

/-- A coroutine started in the middle of a segment moves what is left of the segment. -/
theorem start_meets [Inhabited α] {p : Player} {reads writes : List Nat} {c : Coro α} {s : Script}
    (h : Follows p reads writes c s) : ∀ (label : Label) (group : Nat), ∃ rest,
      s.traffic p label group 0 = (Script.own label ⟨reads, writes⟩).append rest ∧
      Meets (fun run => Remains p label run (s.rounds - 1) fun j => s.traffic p label group (j + 1))
        (start label group c) rest := by
  induction h with
  | @done reads writes ops hops =>
      intro label group
      refine ⟨.none, ?_, .pure ⟨rfl, fun j => rfl⟩⟩
      rw [Script.traffic, hops, Traffic.append_none]
  | @write reads writes data next s _ ih =>
      intro label group
      obtain ⟨rest, htraffic, hmeets⟩ := ih label group
      refine ⟨_, ?_, .write hmeets⟩
      rw [htraffic, own_append_writes, Traffic.append_assoc]
  | @read reads writes len next s _ ih =>
      intro label group
      -- the rest of the segment does not depend on the bytes received
      obtain ⟨rest, htraffic, _⟩ := ih (List.replicate len default) (by simp) label group
      refine ⟨.append ⟨List.replicate len label, []⟩ rest, ?_, .read fun data hdata => ?_⟩
      · rw [htraffic, own_append_reads, Traffic.append_assoc]
      · obtain ⟨rest', htraffic', hmeets⟩ := ih data hdata label group
        rw [htraffic] at htraffic'
        rwa [Traffic.append_cancel htraffic']
  | @yield reads writes ops next s hops hnext _ =>
      intro label group
      refine ⟨.none, ?_, .pure ⟨s, hnext, ?_, fun j => rfl⟩⟩
      · rw [Script.traffic, hops, Traffic.append_none]
      · simp [Script.rounds]
  | @group reads writes ops n coroutines scripts next s hops hcoroutines hnext ihc _ =>
      intro label group
      refine ⟨.concat fun i => (scripts i).traffic p (label ++ [group, i.val]) 0 0, ?_, ?_⟩
      · rw [Script.traffic, hops]
      · have hall : ∀ i, Meets (fun run => Remains p (label ++ [group, i.val]) run
            ((scripts i).rounds - 1) fun j => (scripts i).traffic p (label ++ [group, i.val]) 0 (j + 1))
            (start (label ++ [group, i.val]) 0 (coroutines i))
            ((scripts i).traffic p (label ++ [group, i.val]) 0 0) := by
          intro i
          obtain ⟨rest, htraffic, hmeets⟩ := ihc i (label ++ [group, i.val]) 0
          rwa [htraffic, own_none, Traffic.none_append]
        rw [start, ← Traffic.append_none (Traffic.concat _)]
        refine (Meets.all hall).bind fun runs hruns => .pure ?_
        exact ⟨s, fun i => (scripts i).rounds - 1, _, hnext, hruns, rfl, fun j => rfl⟩

theorem start_meets_nil [Inhabited α] {p : Player} {c : Coro α} {s : Script} (h : Follows p [] [] c s)
    (label : Label) (group : Nat) :
    Meets (fun run => Remains p label run (s.rounds - 1) fun j => s.traffic p label group (j + 1))
      (start label group c) (s.traffic p label group 0) := by
  obtain ⟨rest, htraffic, hmeets⟩ := start_meets h label group
  rwa [htraffic, own_none, Traffic.none_append]

theorem sup_pred {n : Nat} (left : Fin n → Nat) :
    (Finset.univ.sup fun i => left i - 1) = Finset.univ.sup left - 1 := by
  apply le_antisymm
  · refine Finset.sup_le fun i hi => ?_
    exact Nat.sub_le_sub_right (Finset.le_sup (f := left) hi) 1
  · have hle : Finset.univ.sup left ≤ (Finset.univ.sup fun i => left i - 1) + 1 := by
      refine Finset.sup_le fun i hi => ?_
      have h := Finset.le_sup (f := fun i => left i - 1) hi
      omega
    omega

/-- One round of a run moves the next of its traffic. -/
theorem resume_meets [Inhabited α] {p : Player} (run : Run α) : ∀ {label : Label} {rounds : Nat}
    {traffic : Nat → Traffic Label}, Remains p label run rounds traffic →
      Meets (fun run' => Remains p label run' (rounds - 1) fun j => traffic (j + 1))
        (resume label run) (traffic 0) := by
  induction run with
  | finished =>
      intro label rounds traffic h
      obtain ⟨rfl, htraffic⟩ := h
      rw [htraffic 0]
      exact .pure ⟨rfl, fun j => htraffic (j + 1)⟩
  | paused group next =>
      intro label rounds traffic h
      obtain ⟨s, hfollows, rfl, htraffic⟩ := h
      rw [htraffic 0, resume]
      simp only [htraffic]
      exact start_meets_nil hfollows label group
  | running group n coroutines next ih =>
      intro label rounds traffic h
      obtain ⟨s, left, each, hfollows, hremains, rfl, htraffic⟩ := h
      have halive : (∃ i, (coroutines i).alive = true) ↔ 0 < Finset.univ.sup left := by
        rw [Finset.lt_sup_iff]
        simp [(hremains _).alive_iff]
      rw [htraffic 0, resume]
      simp only [htraffic]
      by_cases hsome : 0 < Finset.univ.sup left
      · rw [if_pos (halive.2 hsome), if_pos hsome, ← Traffic.append_none (Traffic.concat _)]
        have hall : ∀ i, Meets (fun run => Remains p (label ++ [group, i.val]) run (left i - 1)
            fun j => each i (j + 1))
            (if (coroutines i).alive then resume (label ++ [group, i.val]) (coroutines i)
              else .pure .finished) (each i 0) := by
          intro i
          by_cases hi : (coroutines i).alive = true
          · rw [if_pos hi]
            exact ih i (hremains i)
          · have hi' : ((coroutines i).alive) = false := by simpa using hi
            cases hrun : coroutines i with
            | finished =>
                have hfin := hremains i
                rw [hrun] at hfin
                obtain ⟨hleft, hnone⟩ := hfin
                rw [hnone 0, hleft]
                exact .pure ⟨rfl, fun j => hnone (j + 1)⟩
            | paused => rw [hrun] at hi'; cases hi'
            | running => rw [hrun] at hi'; cases hi'
        refine (Meets.all hall).bind fun runs hruns => .pure ?_
        refine ⟨s, fun i => left i - 1, _, hfollows, hruns, ?_, fun j => ?_⟩
        · rw [sup_pred]
          omega
        · dsimp only
          rw [sup_pred]
          by_cases hj : j + 1 < Finset.univ.sup left
          · rw [if_pos hj, if_pos (by omega)]
          · rw [if_neg hj, if_neg (by omega), Nat.sub_sub_right _ hsome]
      · have hzero : Finset.univ.sup left = 0 := by omega
        rw [if_neg (fun hex => hsome (halive.1 hex)), if_neg hsome, hzero, Nat.zero_sub, Nat.zero_add]
        simp only [Nat.not_lt_zero, if_false, Nat.sub_zero]
        exact start_meets_nil hfollows label (group + 1)

/-- Where a byte belongs. -/
def Tagged.key (t : Tagged α) : Nat × Label := (t.segment, t.label)

/-- The byte as it is read, one segment after it was written. -/
def Tagged.delayed (t : Tagged α) : Tagged α := ⟨t.segment + 1, t.label, t.byte⟩

/-- Every byte that a party has read, in order, is the byte that the same coroutine of its peer wrote
in the segment before. -/
def Aligned (parties : Player → Party α) : Prop :=
  ∀ p, (parties p).readLog <+: (parties p.peer).writeLog.map Tagged.delayed

/-- The keys of the bytes of the first `n` segments. -/
def keys (traffic : Nat → List Label) (n : Nat) : List (Nat × Label) :=
  (List.range n).flatMap fun j => (traffic j).map (Prod.mk j)

theorem keys_succ (traffic : Nat → List Label) (n : Nat) :
    keys traffic (n + 1) = keys traffic n ++ (traffic n).map (Prod.mk n) := by
  simp [keys, List.range_succ]

theorem keys_mono (traffic : Nat → List Label) {m n : Nat} (hmn : m ≤ n) :
    keys traffic m <+: keys traffic n := by
  induction n, hmn using Nat.le_induction with
  | base => exact List.prefix_rfl
  | succ n _ ih =>
      rw [keys_succ]
      exact ih.trans (List.prefix_append _ _)

/-- Reads that follow the writes by one segment have the keys of the writes, delayed. -/
theorem keys_delayed {reads writes : Nat → List Label} (hzero : reads 0 = [])
    (hsucc : ∀ j, reads (j + 1) = writes j) (n : Nat) :
    (keys writes n).map (Prod.map Nat.succ id) = keys reads (n + 1) := by
  induction n with
  | zero => simp [keys, hzero]
  | succ n ih =>
      rw [keys_succ writes, List.map_append, ih, keys_succ reads (n + 1), hsucc]
      simp

@[simp] theorem tag_key (segment : Nat) (label : Label) (data : List α) :
    (tag segment label data).map Tagged.key =
      (List.replicate data.length label).map (Prod.mk segment) := by
  simp [tag, Function.comp_def, Tagged.key]

@[simp] theorem tag_byte (segment : Nat) (label : Label) (data : List α) :
    (tag segment label data).map Tagged.byte = data := by
  simp [tag, Function.comp_def]

theorem map_key_delayed (log : List (Tagged α)) :
    (log.map Tagged.delayed).map Tagged.key = (log.map Tagged.key).map (Prod.map Nat.succ id) := by
  simp [Function.comp_def, Tagged.key, Tagged.delayed]

theorem map_byte_delayed (log : List (Tagged α)) :
    (log.map Tagged.delayed).map Tagged.byte = log.map Tagged.byte := by
  simp [Function.comp_def, Tagged.delayed]

/-- A party in the middle of its script: `rest` is what is left of the current segment. -/
structure OnScript (s : Script) (p : Player) (party : Party α) (rest : Traffic Label) : Prop where
  meets : Meets (fun run => Remains p [] run (s.rounds - (party.segment + 1))
    fun j => s.traffic p [] 0 (party.segment + 1 + j)) party.proc rest
  reads : party.readLog.map Tagged.key ++ rest.reads.map (Prod.mk party.segment) =
    keys (fun j => (s.traffic p [] 0 j).reads) (party.segment + 1)
  writes : party.writeLog.map Tagged.key ++ rest.writes.map (Prod.mk party.segment) =
    keys (fun j => (s.traffic p [] 0 j).writes) (party.segment + 1)

theorem OnScript.init [Inhabited α] {p : Player} {c : Coro α} {s : Script}
    (h : Follows p [] [] c s) : OnScript s p (.init c) (s.traffic p [] 0 0) := by
  have hmeets := start_meets_nil h [] 0
  refine ⟨?_, by simp [Party.init, keys], by simp [Party.init, keys]⟩
  simpa only [Party.init, Nat.zero_add, Nat.add_comm 1] using hmeets

theorem OnScript.receive {s : Script} {p : Player} {party : Party α} {rest : Traffic Label}
    (h : OnScript s p party rest) (data : List α) : OnScript s p (party.receive data) rest :=
  ⟨h.meets, h.reads, h.writes⟩

/-- A step keeps a party on its script. -/
theorem OnScript.next [Inhabited α] {s : Script} {p : Player} {party party' : Party α}
    {rest : Traffic Label} {data : List α} (h : OnScript s p party rest)
    (hnext : party.next = some (party', data)) : ∃ rest', OnScript s p party' rest' := by
  obtain ⟨proc, segment, readLog, writeLog, inbox⟩ := party
  obtain ⟨hmeets, hreads, hwrites⟩ := h
  cases hmeets with
  | @write label sent next rest hmeets =>
      simp only [Party.next, Option.some.injEq, Prod.mk.injEq] at hnext
      obtain ⟨rfl, rfl⟩ := hnext
      refine ⟨rest, hmeets, ?_, ?_⟩
      · simpa using hreads
      · simpa [List.append_assoc] using hwrites
  | @read label len next rest hmeets =>
      simp only [Party.next] at hnext
      by_cases hlen : len ≤ inbox.length
      · rw [if_pos hlen] at hnext
        simp only [Option.some.injEq, Prod.mk.injEq] at hnext
        obtain ⟨rfl, rfl⟩ := hnext
        refine ⟨rest, hmeets _ (by simp [hlen]), ?_, ?_⟩
        · simpa [List.append_assoc, hlen] using hreads
        · simpa using hwrites
      · rw [if_neg hlen] at hnext
        cases hnext
  | @pure run hrun =>
      simp only [Party.next] at hnext
      by_cases halive : run.alive = true
      · rw [if_pos halive] at hnext
        simp only [Option.some.injEq, Prod.mk.injEq] at hnext
        obtain ⟨rfl, rfl⟩ := hnext
        refine ⟨s.traffic p [] 0 (segment + 1), ?_, ?_, ?_⟩
        · have hround := resume_meets run hrun
          simp only [Nat.sub_sub, Nat.add_zero] at hround
          simpa only [Nat.add_assoc, Nat.add_comm 1] using hround
        · rw [keys_succ]
          simpa using hreads
        · rw [keys_succ]
          simpa using hwrites
      · rw [if_neg halive] at hnext
        cases hnext

/-- What a step does to the bytes: it takes what it reads from its inbox, and logs what it sends. -/
theorem Party.next_bytes {party party' : Party α} {data : List α}
    (hnext : party.next = some (party', data)) :
    party'.readLog.map Tagged.byte ++ party'.inbox = party.readLog.map Tagged.byte ++ party.inbox ∧
      party'.writeLog.map Tagged.byte = party.writeLog.map Tagged.byte ++ data := by
  unfold Party.next at hnext
  split at hnext
  · simp only [Option.some.injEq, Prod.mk.injEq] at hnext
    obtain ⟨rfl, rfl⟩ := hnext
    simp
  · split at hnext
    · simp only [Option.some.injEq, Prod.mk.injEq] at hnext
      obtain ⟨rfl, rfl⟩ := hnext
      simp
    · cases hnext
  · split at hnext
    · simp only [Option.some.injEq, Prod.mk.injEq] at hnext
      obtain ⟨rfl, rfl⟩ := hnext
      simp
    · cases hnext

/-- Both parties are on the script, and each inbox holds what the peer wrote beyond what was read. -/
structure InStep (s : Script) (parties : Player → Party α) : Prop where
  onScript : ∀ p, ∃ rest, OnScript s p (parties p) rest
  channel : ∀ p, (parties p).readLog.map Tagged.byte ++ (parties p).inbox =
    (parties p.peer).writeLog.map Tagged.byte

theorem InStep.step [Inhabited α] {s : Script} {p : Player} {parties parties' : Player → Party α}
    (h : InStep s parties) (hstep : Step p parties parties') : InStep s parties' := by
  cases hstep with
  | mk party data hnext =>
      obtain ⟨hread, hwrite⟩ := Party.next_bytes hnext
      refine ⟨fun q => ?_, fun q => ?_⟩
      · obtain ⟨rest, hrest⟩ := h.onScript q
        by_cases hq : q = p
        · subst hq
          simp only [if_true]
          exact hrest.next hnext
        · simp only [if_neg hq]
          exact ⟨rest, hrest.receive data⟩
      · have hchannel := h.channel q
        by_cases hq : q = p
        · subst hq
          have hpeer : q.peer ≠ q := by cases q <;> simp
          simp only [if_true, if_neg hpeer]
          rw [hread, hchannel]
          rfl
        · have hpeer : q.peer = p := by
            cases q <;> cases p <;> first | rfl | exact absurd rfl hq
          subst hpeer
          simp only [if_neg hq, if_true]
          rw [hwrite, ← hchannel]
          simp [Party.receive]

theorem InStep.of_reachable [Inhabited α] {s : Script} {c : Player → Coro α}
    {parties : Player → Party α} (hc : ∀ p, Follows p [] [] (c p) s) (h : Reachable c parties) :
    InStep s parties := by
  induction h with
  | init =>
      exact ⟨fun p => ⟨_, .init (hc p)⟩, fun p => by simp [Party.init]⟩
  | step p _ hstep ih => exact ih.step hstep

/-- A log is a prefix of another once its keys and its bytes are. -/
theorem prefix_of_keys_bytes {log log' : List (Tagged α)} {all : List (Nat × Label)}
    (hkeys : log.map Tagged.key <+: all) (hkeys' : log'.map Tagged.key <+: all)
    (hbytes : log.map Tagged.byte <+: log'.map Tagged.byte) : log <+: log' := by
  have hlen : log.length ≤ log'.length := by simpa using hbytes.length_le
  rw [List.prefix_iff_getElem]
  refine ⟨hlen, fun i hi => ?_⟩
  have hkey := hkeys.getElem (i := i) (by simpa using hi)
  have hkey' := hkeys'.getElem (i := i) (by simpa using lt_of_lt_of_le hi hlen)
  have hbyte := hbytes.getElem (i := i) (by simpa using hi)
  rw [List.getElem_map] at hkey hkey' hbyte
  rw [List.getElem_map] at hbyte
  have hboth := hkey.trans hkey'.symm
  simp only [Tagged.key, Prod.mk.injEq] at hboth
  cases hlog : log[i] with
  | mk segment label byte =>
      cases hlog' : log'[i] with
      | mk segment' label' byte' =>
          rw [hlog, hlog'] at hboth hbyte
          obtain ⟨hsegment, hlabel⟩ := hboth
          dsimp only at hsegment hlabel hbyte
          rw [hsegment, hlabel, hbyte]

/-- Alignment of a state in step. -/
theorem InStep.aligned {s : Script} {parties : Player → Party α} (h : InStep s parties)
    (hs : s.Paired fun _ => []) (hnested : s.Nested (Script.Paired fun _ => [])) : Aligned parties := by
  intro p
  obtain ⟨rest, hp⟩ := h.onScript p
  obtain ⟨rest', hq⟩ := h.onScript p.peer
  have hpaired := s.traffic_paired _ [] 0 hs hnested p
  have hdelayed := @keys_delayed (fun j => (s.traffic p [] 0 j).reads)
    (fun j => (s.traffic p.peer [] 0 j).writes) (by simp [hpaired.1]) hpaired.2
  -- both logs carry the keys of the reads of the first `n` segments
  let n := max ((parties p).segment + 1) ((parties p.peer).segment + 2)
  apply @prefix_of_keys_bytes _ _ _ (keys (fun j => (s.traffic p [] 0 j).reads) n)
  · refine List.IsPrefix.trans ⟨_, hp.reads⟩ (keys_mono _ (le_max_left _ _))
  · rw [map_key_delayed]
    refine List.IsPrefix.trans ?_ (keys_mono _ (le_max_right _ _))
    rw [← hdelayed, ← hq.writes, List.map_append]
    exact List.prefix_append _ _
  · rw [map_byte_delayed, ← h.channel p]
    exact List.prefix_append _ _

/-- **Every byte is read by the coroutine it was written for.**  For every tree of coroutines whose
reads across yields match the peer's writes, and which neither read before their first yield nor write
after their last, every state of every interleaving of the two parties is aligned. -/
theorem lock_step [Inhabited α] (s : Script) (c : Player → Coro α)
    (hc : ∀ p, Follows p [] [] (c p) s) (hacross : s.Everywhere Script.AcrossYields)
    (hquiet : s.Everywhere Script.QuietEnds) (parties : Player → Party α)
    (hreach : Reachable c parties) : Aligned parties := by
  have hnested := (hacross.2.and hquiet.2).imp fun _ hs => Script.paired_of_quiet hs.1 hs.2
  exact (InStep.of_reachable hc hreach).aligned (Script.paired_of_quiet hacross.1 hquiet.1) hnested

/-- Party `p` moves if it can. -/
def move (parties : Player → Party α) (p : Player) : Player → Party α :=
  match (parties p).next with
  | none => parties
  | some (party, data) => fun q => if q = p then party else (parties q).receive data

theorem Reachable.move {c : Player → Coro α} {parties : Player → Party α} (h : Reachable c parties)
    (p : Player) : Reachable c (move parties p) := by
  unfold Prac.move
  split
  · exact h
  · next party data hnext => exact h.step p (.mk party data hnext)

theorem Reachable.moves {c : Player → Coro α} (order : List Player) {parties : Player → Party α}
    (h : Reachable c parties) : Reachable c (order.foldl Prac.move parties) := by
  induction order generalizing parties with
  | nil => exact h
  | cons p order ih => exact ih (h.move p)

/-- `run_coroutines` with two coroutines; the second sends a byte, yields and reads one. -/
def withExchange (first : Coro Bool) : Coro Bool :=
  .runCoroutines 2 (fun i => if i.val = 0 then first
    else .write [true] (.yield (.read 1 fun _ => .done))) .done

/-- The script of `withExchange`. -/
def withExchangeScript (first : Script) : Script :=
  .group (fun _ => .none) 2 (fun i => if i.val = 0 then first
    else .yield (fun _ => ⟨[], [1]⟩) (.finish fun _ => ⟨[1], []⟩)) (.finish fun _ => .none)

theorem withExchange_follows {p : Player} {first : Coro Bool} {s : Script}
    (h : Follows p [] [] first s) : Follows p [] [] (withExchange first) (withExchangeScript s) := by
  refine .group rfl (fun i => ?_) (.done rfl)
  by_cases hi : i.val = 0
  · rw [if_pos hi, if_pos hi]
    exact h
  · rw [if_neg hi, if_neg hi]
    exact .write (.yield rfl (.read fun _ _ => .done rfl))

theorem withExchange_ops (p : Player) (first : Script) (j : Nat) :
    (withExchangeScript first).ops p j = .none := by
  cases j with
  | zero => rfl
  | succ j =>
      rw [withExchangeScript, Script.ops]
      split
      · rfl
      · cases j - Script.extra _ with
        | zero => rfl
        | succ j => rfl

/-- The messages of `withExchange` match if those of its first coroutine do. -/
theorem withExchange_acrossYields {first : Script} (h : first.Everywhere Script.AcrossYields) :
    (withExchangeScript first).Everywhere Script.AcrossYields := by
  refine ⟨fun p j _ => ?_, fun i => ?_, trivial⟩
  · rw [withExchange_ops, withExchange_ops]
    rfl
  · dsimp only
    by_cases hi : i.val = 0
    · rw [if_pos hi]
      exact h
    · rw [if_neg hi]
      refine ⟨fun p j hj => ?_, trivial⟩
      have hj0 : j = 0 := by
        simp only [Script.rounds] at hj
        omega
      rw [hj0]
      rfl

theorem withExchange_quietEnds {first : Script} (h : first.Everywhere Script.QuietEnds) :
    (withExchangeScript first).Everywhere Script.QuietEnds := by
  refine ⟨fun p => ?_, fun i => ?_, trivial⟩
  · rw [withExchange_ops, withExchange_ops]
    exact ⟨rfl, rfl⟩
  · dsimp only
    by_cases hi : i.val = 0
    · rw [if_pos hi]
      exact h
    · rw [if_neg hi]
      exact ⟨fun p => ⟨rfl, rfl⟩, trivial⟩

/-- The parties take four steps each, in turn. -/
def eightSteps (c : Coro Bool) : Player → Party Bool :=
  [Player.p0, .p1, .p0, .p1, .p0, .p1, .p0, .p1].foldl move fun _ => .init c

/-- The exchange beside a coroutine that has nothing to do. -/
theorem lock_step_exchange :
    ((eightSteps (withExchange .done)) .p0).readLog = [⟨1, [0, 1], true⟩] ∧
      Aligned (eightSteps (withExchange .done)) := by
  have hquiet : (Script.finish fun _ => .none).Everywhere Script.QuietEnds :=
    ⟨fun _ => ⟨rfl, rfl⟩, trivial⟩
  have hacross : (Script.finish fun _ => .none).Everywhere Script.AcrossYields :=
    ⟨fun _ j hj => absurd hj (by simp [Script.rounds]), trivial⟩
  exact ⟨by decide, lock_step _ _ (fun _ => withExchange_follows (.done rfl))
    (withExchange_acrossYields hacross) (withExchange_quietEnds hquiet) _ (Reachable.init.moves _)⟩

/-- Beside a coroutine that writes a byte and never yields, the exchange reads that byte: the
coroutine has no yield across which the byte could be read. -/
theorem siblings_misaligned :
    (∀ p, Follows p [] [] (withExchange (.write [false] .done))
      (withExchangeScript (.finish fun _ => ⟨[], [1]⟩))) ∧
    (withExchangeScript (.finish fun _ => ⟨[], [1]⟩)).Everywhere Script.AcrossYields ∧
    Reachable (fun _ => withExchange (.write [false] .done))
      (eightSteps (withExchange (.write [false] .done))) ∧
    ¬ Aligned (eightSteps (withExchange (.write [false] .done))) := by
  refine ⟨fun p => withExchange_follows (.write (.done rfl)), ?_, Reachable.init.moves _, ?_⟩
  · exact withExchange_acrossYields
      ⟨fun _ j hj => absurd hj (by simp [Script.rounds]), trivial⟩
  · intro h
    have hread : ((eightSteps (withExchange (.write [false] .done))) .p0).readLog =
        [⟨1, [0, 1], false⟩] := by decide
    have hwritten : ((eightSteps (withExchange (.write [false] .done))) .p1).writeLog =
        [⟨0, [0, 0], false⟩, ⟨0, [0, 1], true⟩] := by decide
    have hprefix := h .p0
    rw [hread, Player.peer_p0, hwritten] at hprefix
    simp [Tagged.delayed] at hprefix

end Prac
