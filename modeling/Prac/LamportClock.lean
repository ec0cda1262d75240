import Mathlib.Data.Fintype.Card
import Mathlib.Data.List.Forall2
import Mathlib.Order.Bounds.Basic
import Prac.SingleIo

/-!
# The Lamport clocks of a run (`MPCTIO::sync_lamport`, `mpcio.cpp`)

Every thread of every party has a clock, every party has one for all its threads, and messages carry clocks.  The
threads run in any order; `sync_lamport` is a loop around `compare_exchange_weak`, between whose rounds other
threads can do the same.

* `Clocks.step` — one step of one thread: a new `MPCTIO`, `queue`, `send`, the header that `recv` reads, the start
  of `sync_lamport`, and a round of its loop.
* `Chains.step` — what the clocks are for: the chains of messages behind each thread, party and message.
* `Clocks.Latency.step`, `lamport_clock_latency` — over every run the clocks are the lengths of the longest chains.
* `Clocks.failed_add_stale`, `sync_lamport_lock_free` — the rounds that fail are paid for by those that succeed.
-/

namespace Prac

open MPCSingleIo (later)

/-! ## The clocks -/

/-- Where a thread is in `sync_lamport`. -/
inductive Sync where
  | idle
  | loop (oldLamport newLamport : Lamport)

/-- One direction of a stream, as far as the clocks go: the number of bytes queued, the clock of the message that
they are of, and the clocks of the messages sent and not read. -/
structure ClockChannel where
  dataqueue : Nat
  messageLamport : Option Lamport
  sent : List Lamport

namespace ClockChannel

/-- `MPCSingleIO::send`.  It fails where `message_lamport.value()` throws. -/
def send (ch : ClockChannel) (implicitSend : Bool) : Option ClockChannel :=
  if ch.dataqueue = 0 then
    some (if implicitSend then ch else { ch with messageLamport := none })
  else
    ch.messageLamport.map fun lamport =>
      { dataqueue := 0
        messageLamport := if implicitSend then ch.messageLamport else none
        sent := ch.sent ++ [lamport] }

/-- `MPCSingleIO::queue`. -/
def queue (ch : ClockChannel) (len : Nat) (lamport : Lamport) : Option ClockChannel :=
  let ch := { ch with
    dataqueue := ch.dataqueue + len
    messageLamport := some (ch.messageLamport.getD lamport) }
  if ch.dataqueue > 28800 then ch.send true else some ch

/-- The channel keeps what the clocks need of one end; `written` are the messages on the wire. -/
structure Keeps (ch : ClockChannel) (io : MPCSingleIo) (written : List MessageWithHeader) : Prop where
  dataqueue : ch.dataqueue = io.dataqueue.length
  messageLamport : ch.messageLamport = io.messageLamport
  sent : List.Forall₂ (fun lamport m => ∃ msg, m = MessageWithHeader.make msg lamport) ch.sent
    (written ++ io.messagequeue)

variable {ch : ClockChannel} {io : MPCSingleIo} {written : List MessageWithHeader}

theorem Keeps.send (h : ch.Keeps io written) (implicitSend : Bool) {io' : MPCSingleIo}
    (hsend : io.send implicitSend = some io') :
    ∃ ch', ch.send implicitSend = some ch' ∧ ch'.Keeps io' written := by
  rw [MPCSingleIo.send] at hsend
  rw [ClockChannel.send, h.dataqueue]
  by_cases hempty : io.dataqueue.length = 0
  · rw [if_pos hempty] at hsend ⊢
    obtain rfl := Option.some.inj hsend
    refine ⟨_, rfl, ?_⟩
    cases implicitSend with
    | false => exact ⟨rfl, rfl, h.sent⟩
    | true => exact h
  · rw [if_neg hempty] at hsend ⊢
    obtain ⟨lamport, hlamport, hio⟩ := Option.map_eq_some_iff.mp hsend
    obtain ⟨writing, hlaunch⟩ := MPCSingleIo.launch_eq
      { io with
        dataqueue := []
        messagequeue := io.messagequeue ++ [.make io.dataqueue lamport]
        messageLamport := if implicitSend then io.messageLamport else none }
      ((io.messagequeue ++ [MessageWithHeader.make io.dataqueue lamport]).length = 1)
    obtain rfl := hlaunch.symm.trans hio
    rw [h.messageLamport, hlamport]
    refine ⟨_, rfl, rfl, rfl, ?_⟩
    rw [← List.append_assoc]
    exact List.rel_append h.sent (.cons ⟨_, rfl⟩ .nil)

theorem Keeps.queue (h : ch.Keeps io written) (data : List UInt8) (lamport : Lamport) {io' : MPCSingleIo}
    {newmsg : Nat} (hqueue : io.queue data lamport = some (io', newmsg)) :
    ∃ ch', ch.queue data.length lamport = some ch' ∧ ch'.Keeps io' written := by
  have hfilled : Keeps
      { ch with
        dataqueue := ch.dataqueue + data.length
        messageLamport := some (ch.messageLamport.getD lamport) }
      { io with
        dataqueue := io.dataqueue ++ data
        messageLamport := some (io.messageLamport.getD lamport) } written := by
    refine ⟨?_, ?_, h.sent⟩
    · rw [List.length_append, h.dataqueue]
    · rw [h.messageLamport]
  have hlen : ch.dataqueue + data.length = (io.dataqueue ++ data).length := hfilled.dataqueue
  rw [MPCSingleIo.queue] at hqueue
  rw [ClockChannel.queue]
  dsimp only at hqueue ⊢
  by_cases hfull : (io.dataqueue ++ data).length > 28800
  · rw [if_pos hfull] at hqueue
    rw [if_pos (hlen ▸ hfull)]
    obtain ⟨io1, hsend, heq⟩ := Option.map_eq_some_iff.mp hqueue
    cases heq
    exact hfilled.send true hsend
  · rw [if_neg hfull] at hqueue
    rw [if_neg (hlen ▸ hfull)]
    cases hqueue
    exact ⟨_, rfl, hfilled⟩

end ClockChannel

/-- The clocks of the parties `π`, of the threads `ι` and on the channels `χ`. -/
structure Clocks (π ι χ : Type) where
  lamport : π → Lamport
  threadLamport : ι → Lamport
  sync : ι → Sync
  channel : χ → ClockChannel

/-- A step of a thread. -/
inductive ClockStep (ι χ : Type) where
  | create (i : ι)
  | queue (i : ι) (c : χ) (len : Nat)
  | send (c : χ)
  | recv (i : ι) (c : χ)
  | sync (i : ι)
  | exchange (i : ι) (spurious : Bool)

/-- The messages that a step reads. -/
def ClockStep.received {ι χ : Type} : ClockStep ι χ → Nat
  | recv _ _ => 1
  | _ => 0

namespace Clocks

variable {π ι χ : Type} [DecidableEq π] [DecidableEq ι] [DecidableEq χ] (party : ι → π)

/-- Before anything runs. -/
def init : Clocks π ι χ := ⟨fun _ => 0, fun _ => 0, fun _ => .idle, fun _ => ⟨0, none, []⟩⟩

/-- One step.  A thread in `sync_lamport` does nothing else; `compare_exchange_weak` may fail for no reason. -/
def step (s : Clocks π ι χ) : ClockStep ι χ → Option (Clocks π ι χ)
  | .create i =>
    match s.sync i with
    | .idle => some { s with threadLamport := Function.update s.threadLamport i (s.lamport (party i)) }
    | .loop _ _ => none
  | .queue i c len =>
    match s.sync i with
    | .idle => ((s.channel c).queue len (s.threadLamport i)).map fun ch =>
        { s with channel := Function.update s.channel c ch }
    | .loop _ _ => none
  | .send c =>
    ((s.channel c).send false).map fun ch => { s with channel := Function.update s.channel c ch }
  | .recv i c =>
    match s.sync i, (s.channel c).sent with
    | .idle, recvLamport :: rest =>
      some { s with
        threadLamport := Function.update s.threadLamport i (later (s.threadLamport i) recvLamport)
        channel := Function.update s.channel c { s.channel c with sent := rest } }
    | _, _ => none
  | .sync i =>
    match s.sync i with
    | .idle => some { s with
        sync := Function.update s.sync i (.loop (s.lamport (party i)) (s.threadLamport i)) }
    | .loop _ _ => none
  | .exchange i spurious =>
    match s.sync i with
    | .idle => none
    | .loop oldLamport newLamport =>
      let newLamport := if newLamport < oldLamport then oldLamport else newLamport
      if s.lamport (party i) = oldLamport ∧ spurious = false then
        some { s with
          lamport := Function.update s.lamport (party i) newLamport
          threadLamport := Function.update s.threadLamport i newLamport
          sync := Function.update s.sync i .idle }
      else
        some { s with sync := Function.update s.sync i (.loop (s.lamport (party i)) newLamport) }

end Clocks

/-! ## The chains of messages behind them -/

/-- The chains of messages that come before what a party, a thread or a message knows.  A chain lists the channels
of its messages, the last one first. -/
structure Chains (π ι χ : Type) where
  party : π → Set (List χ)
  thread : ι → Set (List χ)
  message : χ → Set (List χ)
  sent : χ → List (Set (List χ))

namespace Chains

variable {π ι χ : Type} [DecidableEq π] [DecidableEq ι] [DecidableEq χ] (party : ι → π)

/-- No messages. -/
def init : Chains π ι χ := ⟨fun _ => {[]}, fun _ => {[]}, fun _ => {[]}, fun _ => []⟩

/-- What is known after a step from `s`.  A message stands for what was known when it began, and a thread that
leaves `sync_lamport` and its party know the same. -/
def step (s : Clocks π ι χ) (k : Chains π ι χ) : ClockStep ι χ → Chains π ι χ
  | .create i => { k with thread := Function.update k.thread i (k.party (party i)) }
  | .queue i c len =>
    let message := if (s.channel c).messageLamport.isNone then k.thread i else k.message c
    let sent := if (s.channel c).dataqueue + len > 28800 then k.sent c ++ [message] else k.sent c
    { k with message := Function.update k.message c message, sent := Function.update k.sent c sent }
  | .send c =>
    let sent := if (s.channel c).dataqueue = 0 then k.sent c else k.sent c ++ [k.message c]
    { k with sent := Function.update k.sent c sent }
  | .recv i c =>
    match k.sent c with
    | known :: rest =>
      { k with
        thread := Function.update k.thread i (k.thread i ∪ (c :: ·) '' known)
        sent := Function.update k.sent c rest }
    | [] => k
  | .sync _ => k
  | .exchange i spurious =>
    match s.sync i with
    | .idle => k
    | .loop oldLamport _ =>
      if s.lamport (party i) = oldLamport ∧ spurious = false then
        let known := k.thread i ∪ k.party (party i)
        { k with
          party := Function.update k.party (party i) known
          thread := Function.update k.thread i known }
      else k

end Chains

/-- The clock is the length of the longest chain, and at most `n`. -/
def Measures {χ : Type} (n : Nat) (known : Set (List χ)) (lamport : Lamport) : Prop :=
  IsGreatest (List.length '' known) lamport.toNat ∧ lamport.toNat ≤ n

namespace Measures

variable {χ : Type} {n : Nat} {known known' : Set (List χ)} {lamport lamport' : Lamport}

theorem init (n : Nat) : Measures n ({[]} : Set (List χ)) 0 := by
  refine ⟨?_, Nat.zero_le n⟩
  rw [Set.image_singleton]
  exact isGreatest_singleton

theorem mono (h : Measures n known lamport) {m : Nat} (hle : n ≤ m) : Measures m known lamport :=
  ⟨h.1, h.2.trans hle⟩

/-- Chains from both sides. -/
theorem union (h : Measures n known lamport) (h' : Measures n known' lamport') {joined : Lamport}
    (hjoined : joined.toNat = max lamport.toNat lamport'.toNat) : Measures n (known ∪ known') joined := by
  refine ⟨?_, hjoined ▸ max_le h.2 h'.2⟩
  rw [Set.image_union, hjoined]
  exact h.1.union h'.1

/-- One message more. -/
theorem cons (h : Measures n known lamport) (c : χ) {next : Lamport} (hnext : next.toNat = lamport.toNat + 1) :
    Measures (n + 1) ((c :: ·) '' known) next := by
  refine ⟨?_, hnext ▸ Nat.succ_le_succ h.2⟩
  rw [Set.image_image, hnext]
  obtain ⟨⟨chain, hchain, hlen⟩, hmax⟩ := h.1
  constructor
  · exact ⟨chain, hchain, congrArg Nat.succ hlen⟩
  · rintro _ ⟨chain', hchain', rfl⟩
    exact Nat.succ_le_succ (hmax ⟨chain', hchain', rfl⟩)

end Measures

theorem toNat_succ {lamport : Lamport} (h : lamport.toNat + 1 < 2 ^ 32) :
    (lamport + 1).toNat = lamport.toNat + 1 := by
  rw [UInt32.toNat_add, show (1 : UInt32).toNat = 1 from rfl, Nat.mod_eq_of_lt h]

/-- The later of two clocks, as the code takes it. -/
theorem toNat_ite (a b : Lamport) : (if a < b then b else a).toNat = max a.toNat b.toNat := by
  split
  next hlt => rw [UInt32.lt_iff_toNat_lt] at hlt; omega
  next hle => rw [UInt32.lt_iff_toNat_lt] at hle; omega

/-! ## Runs -/

/-- The messages that a channel holds. -/
structure ClockChannel.Measured {χ : Type} (n : Nat) (message : Set (List χ)) (sent : List (Set (List χ)))
    (ch : ClockChannel) : Prop where
  message : ∀ lamport, ch.messageLamport = some lamport → Measures n message lamport
  sent : List.Forall₂ (Measures n) sent ch.sent

namespace ClockChannel.Measured

variable {χ : Type} {n : Nat} {message : Set (List χ)} {sent : List (Set (List χ))} {ch ch' : ClockChannel}

theorem mono (h : ch.Measured n message sent) {m : Nat} (hle : n ≤ m) : ch.Measured m message sent :=
  ⟨fun lamport hl => (h.message lamport hl).mono hle, h.sent.imp fun _ _ hm => hm.mono hle⟩

theorem send (h : ch.Measured n message sent) {implicitSend : Bool} (hsend : ch.send implicitSend = some ch') :
    ch'.Measured n message (if ch.dataqueue = 0 then sent else sent ++ [message]) := by
  rw [ClockChannel.send] at hsend
  by_cases hempty : ch.dataqueue = 0
  · rw [if_pos hempty] at hsend ⊢
    obtain rfl := Option.some.inj hsend
    cases implicitSend with
    | false => exact ⟨nofun, h.sent⟩
    | true => exact h
  · rw [if_neg hempty] at hsend ⊢
    obtain ⟨lamport, hlamport, rfl⟩ := Option.map_eq_some_iff.mp hsend
    refine ⟨fun l hl => ?_, List.rel_append h.sent (.cons (h.message lamport hlamport) .nil)⟩
    cases implicitSend with
    | false => cases hl
    | true => exact h.message l hl

theorem queue (h : ch.Measured n message sent) {thread : Set (List χ)} {lamport : Lamport}
    (hthread : Measures n thread lamport) {len : Nat} (hqueue : ch.queue len lamport = some ch') :
    let message := if ch.messageLamport.isNone then thread else message
    ch'.Measured n message (if ch.dataqueue + len > 28800 then sent ++ [message] else sent) := by
  intro message'
  have hfilled : Measured n message' sent
      { ch with
        dataqueue := ch.dataqueue + len
        messageLamport := some (ch.messageLamport.getD lamport) } := by
    refine ⟨fun l hl => ?_, h.sent⟩
    obtain rfl := Option.some.inj hl
    cases hml : ch.messageLamport with
    | none =>
        simp only [message', hml]
        exact hthread
    | some begun =>
        simp only [message', hml]
        exact h.message begun hml
  rw [ClockChannel.queue] at hqueue
  dsimp only at hqueue
  by_cases hfull : ch.dataqueue + len > 28800
  · rw [if_pos hfull] at hqueue ⊢
    have hsent := hfilled.send hqueue
    rwa [if_neg (show ch.dataqueue + len ≠ 0 by omega)] at hsent
  · rw [if_neg hfull] at hqueue ⊢
    obtain rfl := Option.some.inj hqueue
    exact hfilled

end ClockChannel.Measured

/-- What `sync_lamport` has read: its clocks are between those of the thread and of the party. -/
def Sync.Between (thread lamport : Lamport) : Sync → Prop
  | .idle => True
  | .loop oldLamport newLamport =>
    oldLamport.toNat ≤ lamport.toNat ∧ thread.toNat ≤ newLamport.toNat ∧
      newLamport.toNat ≤ max thread.toNat lamport.toNat

theorem Sync.Between.mono {thread lamport lamport' : Lamport} {sync : Sync} (h : sync.Between thread lamport)
    (hle : lamport.toNat ≤ lamport'.toNat) : sync.Between thread lamport' := by
  cases sync with
  | idle => trivial
  | loop oldLamport newLamport =>
      obtain ⟨hold, hge, hnew⟩ := h
      exact ⟨hold.trans hle, hge, hnew.trans (max_le_max_left _ hle)⟩

namespace Clocks

variable {π ι χ : Type} (party : ι → π)

/-- After at most `n` messages read, the clocks measure what is known. -/
structure Latency (n : Nat) (s : Clocks π ι χ) (k : Chains π ι χ) : Prop where
  lamport : ∀ p, Measures n (k.party p) (s.lamport p)
  thread : ∀ i, Measures n (k.thread i) (s.threadLamport i)
  channel : ∀ c, (s.channel c).Measured n (k.message c) (k.sent c)
  sync : ∀ i, (s.sync i).Between (s.threadLamport i) (s.lamport (party i))

theorem Latency.init : Latency party 0 (init : Clocks π ι χ) .init where
  lamport _ := .init 0
  thread _ := .init 0
  channel _ := ⟨nofun, .nil⟩
  sync _ := trivial

variable {party}

/-- A relation of values, where both functions get a new one. -/
theorem rel_update {α β γ : Type} [DecidableEq α] {R : β → γ → Prop} {f : α → β} {g : α → γ}
    (h : ∀ a, R (f a) (g a)) {a : α} {x : β} {y : γ} (hxy : R x y) (a' : α) :
    R (Function.update f a x a') (Function.update g a y a') := by
  rcases eq_or_ne a' a with rfl | hne
  · rwa [Function.update_self, Function.update_self]
  · rw [Function.update_of_ne hne, Function.update_of_ne hne]
    exact h a'

namespace Latency

variable {n : Nat} {s : Clocks π ι χ} {k : Chains π ι χ}

theorem mono (h : Latency party n s k) {m : Nat} (hle : n ≤ m) : Latency party m s k where
  lamport p := (h.lamport p).mono hle
  thread i := (h.thread i).mono hle
  channel c := (h.channel c).mono hle
  sync := h.sync

/-- One thread, which is not in `sync_lamport`, has a new clock. -/
theorem setThread [DecidableEq ι] (h : Latency party n s k) {i : ι} (hidle : s.sync i = .idle)
    {known : Set (List χ)} {lamport : Lamport} (hknown : Measures n known lamport) :
    Latency party n { s with threadLamport := Function.update s.threadLamport i lamport }
      { k with thread := Function.update k.thread i known } where
  lamport := h.lamport
  thread := rel_update h.thread hknown
  channel := h.channel
  sync j := by
    rcases eq_or_ne j i with rfl | hne
    · show (s.sync j).Between _ _
      rw [hidle]
      trivial
    · show (s.sync j).Between (Function.update s.threadLamport i lamport j) _
      rw [Function.update_of_ne hne]
      exact h.sync j

/-- One channel has new messages. -/
theorem setChannel [DecidableEq χ] (h : Latency party n s k) {c : χ} {message : Set (List χ)}
    {sent : List (Set (List χ))} {ch : ClockChannel} (hch : ch.Measured n message sent) :
    Latency party n { s with channel := Function.update s.channel c ch }
      { k with message := Function.update k.message c message, sent := Function.update k.sent c sent } where
  lamport := h.lamport
  thread := h.thread
  channel c' := by
    rcases eq_or_ne c' c with rfl | hne
    · simp only [Function.update_self]
      exact hch
    · simp only [Function.update_of_ne hne]
      exact h.channel c'
  sync := h.sync

/-- One thread is elsewhere in `sync_lamport`. -/
theorem setSync [DecidableEq ι] (h : Latency party n s k) {i : ι} {sync : Sync}
    (hsync : sync.Between (s.threadLamport i) (s.lamport (party i))) :
    Latency party n { s with sync := Function.update s.sync i sync } k where
  lamport := h.lamport
  thread := h.thread
  channel := h.channel
  sync j := by
    rcases eq_or_ne j i with rfl | hne
    · simp only [Function.update_self]
      exact hsync
    · simp only [Function.update_of_ne hne]
      exact h.sync j

/-- A round that succeeds leaves thread and party with the later of their clocks, whatever the loop has read
before. -/
theorem exchange [DecidableEq π] [DecidableEq ι] (h : Latency party n s k) {i : ι} {newLamport : Lamport}
    (hloop : s.sync i = .loop (s.lamport (party i)) newLamport) {lamport : Lamport}
    (hlamport : lamport.toNat = max newLamport.toNat (s.lamport (party i)).toNat) :
    Latency party n
      { s with
        lamport := Function.update s.lamport (party i) lamport
        threadLamport := Function.update s.threadLamport i lamport
        sync := Function.update s.sync i .idle }
      { k with
        party := Function.update k.party (party i) (k.thread i ∪ k.party (party i))
        thread := Function.update k.thread i (k.thread i ∪ k.party (party i)) } := by
  obtain ⟨-, hge, hnew⟩ : Sync.Between _ _ (.loop (s.lamport (party i)) newLamport) := hloop ▸ h.sync i
  have hjoined : lamport.toNat = max (s.threadLamport i).toNat (s.lamport (party i)).toNat := by omega
  have hknown := (h.thread i).union (h.lamport (party i)) hjoined
  refine ⟨rel_update h.lamport hknown, rel_update h.thread hknown, h.channel, fun j => ?_⟩
  rcases eq_or_ne j i with rfl | hne
  · simp only [Function.update_self]
    trivial
  · simp only [Function.update_of_ne hne]
    -- the clock of the party only grows
    refine (h.sync j).mono ?_
    by_cases hparty : party j = party i
    · rw [hparty, Function.update_self, hlamport]
      exact le_max_right _ _
    · rw [Function.update_of_ne hparty]

/-- A thread reads a message, and knows one chain more for every one behind it. -/
theorem recv [DecidableEq ι] [DecidableEq χ] (h : Latency party n s k) (hroom : n + 1 < 2 ^ 32) {i : ι} {c : χ}
    (hidle : s.sync i = .idle) {recvLamport : Lamport} {rest : List Lamport} {known : Set (List χ)}
    {others : List (Set (List χ))} (hfirst : Measures n known recvLamport)
    (hrest : List.Forall₂ (Measures n) others rest) :
    Latency party (n + 1)
      { s with
        threadLamport := Function.update s.threadLamport i (later (s.threadLamport i) recvLamport)
        channel := Function.update s.channel c { s.channel c with sent := rest } }
      { k with
        thread := Function.update k.thread i (k.thread i ∪ (c :: ·) '' known)
        sent := Function.update k.sent c others } := by
  have hbound : recvLamport.toNat + 1 < 2 ^ 32 := lt_of_le_of_lt (Nat.succ_le_succ hfirst.2) hroom
  have hlater := toNat_ite (s.threadLamport i) (recvLamport + 1)
  have hnext := h.mono (Nat.le_succ n)
  have hthread := hnext.setThread hidle ((hnext.thread i).union (hfirst.cons c (toNat_succ hbound)) hlater)
  have hchannel : { s.channel c with sent := rest }.Measured (n + 1) (k.message c) others :=
    ⟨(hnext.channel c).message, hrest.imp fun _ _ hm => hm.mono (Nat.le_succ n)⟩
  have hset := hthread.setChannel (c := c) hchannel
  rwa [Function.update_eq_self] at hset

variable [DecidableEq π] [DecidableEq ι] [DecidableEq χ]

/-- A step keeps the clocks and the chains together. -/
theorem step (h : Latency party n s k) {a : ClockStep ι χ} (hroom : n + a.received < 2 ^ 32) {s' : Clocks π ι χ}
    (hstep : s.step party a = some s') : Latency party (n + a.received) s' (k.step party s a) := by
  cases a with
  | create i =>
      cases hsync : s.sync i with
      | idle =>
          simp only [Clocks.step, hsync, Option.some.injEq] at hstep
          subst hstep
          exact h.setThread hsync (h.lamport (party i))
      | loop => simp only [Clocks.step, hsync, reduceCtorEq] at hstep
  | queue i c len =>
      cases hsync : s.sync i with
      | idle =>
          simp only [Clocks.step, hsync] at hstep
          obtain ⟨ch, hqueue, rfl⟩ := Option.map_eq_some_iff.mp hstep
          exact h.setChannel ((h.channel c).queue (h.thread i) hqueue)
      | loop => simp only [Clocks.step, hsync, reduceCtorEq] at hstep
  | send c =>
      obtain ⟨ch, hsend, rfl⟩ := Option.map_eq_some_iff.mp hstep
      have hset := h.setChannel (c := c) ((h.channel c).send hsend)
      rwa [Function.update_eq_self] at hset
  | recv i c =>
      cases hsync : s.sync i with
      | idle =>
          cases hsent : (s.channel c).sent with
          | nil => simp only [Clocks.step, hsync, hsent, reduceCtorEq] at hstep
          | cons recvLamport rest =>
              obtain ⟨known, others, hfirst, hrest, hknown⟩ :=
                List.forall₂_cons_right_iff.mp (hsent ▸ (h.channel c).sent)
              simp only [Clocks.step, hsync, hsent, Option.some.injEq] at hstep
              simp only [Chains.step, hknown]
              subst hstep
              exact h.recv hroom hsync hfirst hrest
      | loop => simp only [Clocks.step, hsync, reduceCtorEq] at hstep
  | sync i =>
      cases hsync : s.sync i with
      | idle =>
          simp only [Clocks.step, hsync, Option.some.injEq] at hstep
          subst hstep
          exact h.setSync ⟨le_rfl, le_rfl, le_max_left _ _⟩
      | loop => simp only [Clocks.step, hsync, reduceCtorEq] at hstep
  | exchange i spurious =>
      cases hsync : s.sync i with
      | idle => simp only [Clocks.step, hsync, reduceCtorEq] at hstep
      | loop oldLamport newLamport =>
          have hnew := toNat_ite newLamport oldLamport
          simp only [Clocks.step, hsync] at hstep
          simp only [Chains.step, hsync]
          by_cases hequal : s.lamport (party i) = oldLamport ∧ spurious = false
          · rw [if_pos hequal] at hstep ⊢
            obtain rfl := Option.some.inj hstep
            obtain ⟨rfl, -⟩ := hequal
            exact h.exchange hsync hnew
          · rw [if_neg hequal] at hstep ⊢
            obtain rfl := Option.some.inj hstep
            -- the loop goes on with the clock that it has read
            obtain ⟨hold, hge, hle⟩ : Sync.Between _ _ (.loop oldLamport newLamport) := hsync ▸ h.sync i
            exact h.setSync ⟨le_rfl, by omega, by omega⟩

end Latency

variable [DecidableEq π] [DecidableEq ι] [DecidableEq χ]

/-- A run, with the chains that it leaves. -/
def run (party : ι → π) (s : Clocks π ι χ) (k : Chains π ι χ) :
    List (ClockStep ι χ) → Option (Clocks π ι χ × Chains π ι χ)
  | [] => some (s, k)
  | a :: rest => (s.step party a).bind fun s' => run party s' (k.step party s a) rest

theorem Latency.run {n : Nat} {s s' : Clocks π ι χ} {k k' : Chains π ι χ} (h : Latency party n s k)
    {steps : List (ClockStep ι χ)} (hroom : n + (steps.map ClockStep.received).sum < 2 ^ 32)
    (hrun : Clocks.run party s k steps = some (s', k')) :
    Latency party (n + (steps.map ClockStep.received).sum) s' k' := by
  induction steps generalizing n s k with
  | nil =>
      cases hrun
      exact h
  | cons a rest ih =>
      rw [List.map_cons, List.sum_cons, ← Nat.add_assoc] at hroom ⊢
      obtain ⟨s1, hstep, hrest⟩ := Option.bind_eq_some_iff.mp hrun
      exact ih (h.step (by omega) hstep) hroom hrest

end Clocks

/-- **The clocks measure latencies.**  In every run of any threads of any parties in any order, with fewer than
`2^32` messages read, the clock of each thread is the length of the longest chain of messages behind what it knows,
and so is the clock of each party for what its threads have passed on by `sync_lamport`: no update of the party's
clock is lost, whatever rounds of the loops the others run in between. -/
theorem lamport_clock_latency {π ι χ : Type} [DecidableEq π] [DecidableEq ι] [DecidableEq χ] (party : ι → π)
    (steps : List (ClockStep ι χ)) (hcount : (steps.map ClockStep.received).sum < 2 ^ 32) {s : Clocks π ι χ}
    {k : Chains π ι χ} (hrun : Clocks.run party .init .init steps = some (s, k)) :
    (∀ i, IsGreatest (List.length '' k.thread i) (s.threadLamport i).toNat) ∧
      ∀ p, IsGreatest (List.length '' k.party p) (s.lamport p).toNat := by
  have h := (Clocks.Latency.init party).run (by rwa [Nat.zero_add]) hrun
  exact ⟨fun i => (h.thread i).1, fun p => (h.lamport p).1⟩

/-- Thread 2, of another party, sends to thread 0.  Threads 0 and 1 of one party are in `sync_lamport` at once, and
thread 1 has to try again; then it answers. -/
theorem lamport_clock_latency_three :
    let party : Fin 3 → Bool := fun i => decide (i = 2)
    ∃ (s : Clocks Bool (Fin 3) Bool) (k : Chains Bool (Fin 3) Bool),
      Clocks.run party .init .init [.queue 2 false 16, .send false, .recv 0 false, .sync 1, .sync 0,
        .exchange 0 false, .exchange 1 false, .exchange 1 false, .queue 1 true 8, .send true,
        .recv 2 true] = some (s, k) ∧
      s.threadLamport 2 = 2 ∧ IsGreatest (List.length '' k.thread 2) 2 := by
  intro party
  refine ⟨_, _, rfl, rfl, ?_⟩
  exact (lamport_clock_latency party [.queue 2 false 16, .send false, .recv 0 false, .sync 1, .sync 0,
    .exchange 0 false, .exchange 1 false, .exchange 1 false, .queue 1 true 8, .send true, .recv 2 true] (by decide)
    rfl).1 2

/-! ## The loop of `sync_lamport` -/

/-- The clock that the loop has read is not the party's any more. -/
def Sync.Stale (lamport : Lamport) : Sync → Prop
  | .idle => False
  | .loop oldLamport _ => lamport ≠ oldLamport

instance (lamport : Lamport) : DecidablePred (Sync.Stale lamport)
  | .idle => inferInstanceAs (Decidable False)
  | .loop oldLamport _ => inferInstanceAs (Decidable (lamport ≠ oldLamport))

namespace Clocks

variable {π ι χ : Type} [DecidableEq π] [DecidableEq ι] [DecidableEq χ] (party : ι → π)

/-- A round of the loop that fails because the clock has changed. -/
def failed (s : Clocks π ι χ) : ClockStep ι χ → Nat
  | .exchange i false =>
    match s.sync i with
    | .idle => 0
    | .loop oldLamport _ => if s.lamport (party i) = oldLamport then 0 else 1
  | _ => 0

/-- A round that succeeds. -/
def succeeded (s : Clocks π ι χ) : ClockStep ι χ → Nat
  | .exchange i false =>
    match s.sync i with
    | .idle => 0
    | .loop oldLamport _ => if s.lamport (party i) = oldLamport then 1 else 0
  | _ => 0

/-- What the steps of a run count up to. -/
def tally (count : Clocks π ι χ → ClockStep ι χ → Nat) (s : Clocks π ι χ) : List (ClockStep ι χ) → Nat
  | [] => 0
  | a :: rest => ((s.step party a).map fun s' => count s a + tally count s' rest).getD 0

section Progress

variable [Fintype ι] {party} {s s' : Clocks π ι χ}

/-- The threads whose next round fails. -/
def stale (party : ι → π) (s : Clocks π ι χ) : Finset ι :=
  Finset.univ.filter fun i => (s.sync i).Stale (s.lamport (party i))

omit [DecidableEq π] [DecidableEq ι] [DecidableEq χ] in
theorem mem_stale {i : ι} : i ∈ stale party s ↔ (s.sync i).Stale (s.lamport (party i)) := by
  rw [stale, Finset.mem_filter]
  exact and_iff_right (Finset.mem_univ i)

omit [DecidableEq π] [DecidableEq χ] in
/-- Where one thread reads the party's clock again, it is not stale, and the others are as before. -/
theorem stale_reread (i : ι) (newLamport : Lamport) :
    stale party { s with sync := Function.update s.sync i (.loop (s.lamport (party i)) newLamport) } =
      (stale party s).erase i := by
  ext j
  rw [Finset.mem_erase, mem_stale, mem_stale]
  rcases eq_or_ne j i with rfl | hne
  · simp only [Function.update_self, Sync.Stale, ne_eq, not_true_eq_false, false_and]
  · simp only [Function.update_of_ne hne, ne_eq, hne, not_false_eq_true, true_and]

omit [DecidableEq χ] in
/-- A round that succeeds can make all the other threads stale. -/
theorem card_stale_exchange (party : ι → π) (s : Clocks π ι χ) (i : ι) (lamport : Lamport) :
    (stale party
      { s with
        lamport := Function.update s.lamport (party i) lamport
        threadLamport := Function.update s.threadLamport i lamport
        sync := Function.update s.sync i .idle }).card ≤ Fintype.card ι - 1 := by
  apply Nat.le_sub_one_of_lt
  apply Finset.card_lt_univ_of_notMem (x := i)
  rw [mem_stale]
  simp only [Function.update_self]
  exact id

/-- A failure leaves one stale thread less, and only a success makes others stale. -/
theorem failed_add_stale {a : ClockStep ι χ} (hstep : s.step party a = some s') :
    s.failed party a + (stale party s').card ≤
      (stale party s).card + (Fintype.card ι - 1) * s.succeeded party a := by
  -- where the clocks of the parties and the loops stay as they are
  have hsame (h : stale party s' = stale party s) :
      0 + (stale party s').card ≤ (stale party s).card + (Fintype.card ι - 1) * 0 := by
    rw [h]
    omega
  cases a with
  | create i =>
      cases hsync : s.sync i with
      | idle =>
          simp only [step, hsync, Option.some.injEq] at hstep
          exact hsame (hstep ▸ rfl)
      | loop => simp only [step, hsync, reduceCtorEq] at hstep
  | queue i c len =>
      cases hsync : s.sync i with
      | idle =>
          simp only [step, hsync] at hstep
          obtain ⟨ch, -, heq⟩ := Option.map_eq_some_iff.mp hstep
          exact hsame (heq ▸ rfl)
      | loop => simp only [step, hsync, reduceCtorEq] at hstep
  | send c =>
      obtain ⟨ch, -, heq⟩ := Option.map_eq_some_iff.mp hstep
      exact hsame (heq ▸ rfl)
  | recv i c =>
      simp only [step] at hstep
      split at hstep
      · obtain rfl := Option.some.inj hstep
        exact hsame rfl
      · cases hstep
  | sync i =>
      cases hsync : s.sync i with
      | idle =>
          simp only [step, hsync, Option.some.injEq] at hstep
          subst hstep
          rw [stale_reread]
          exact (Nat.zero_add _).trans_le ((Finset.card_erase_le).trans (Nat.le_add_right _ _))
      | loop => simp only [step, hsync, reduceCtorEq] at hstep
  | exchange i spurious =>
      cases hsync : s.sync i with
      | idle => simp only [step, hsync, reduceCtorEq] at hstep
      | loop oldLamport newLamport =>
          simp only [step, hsync] at hstep
          by_cases hequal : s.lamport (party i) = oldLamport ∧ spurious = false
          · rw [if_pos hequal] at hstep
            obtain rfl := Option.some.inj hstep
            obtain ⟨hlamport, rfl⟩ := hequal
            have hcard := card_stale_exchange party s i
              (if newLamport < oldLamport then oldLamport else newLamport)
            simp only [failed, succeeded, hsync, if_pos hlamport, Nat.mul_one]
            omega
          · rw [if_neg hequal] at hstep
            obtain rfl := Option.some.inj hstep
            rw [stale_reread]
            cases spurious with
            | true => exact (Nat.zero_add _).trans_le ((Finset.card_erase_le).trans (Nat.le_add_right _ _))
            | false =>
                have hne : s.lamport (party i) ≠ oldLamport := fun h => hequal ⟨h, rfl⟩
                have hmem : i ∈ stale party s := by
                  rw [mem_stale, hsync]
                  exact hne
                have hcard := Finset.card_erase_add_one hmem
                simp only [failed, succeeded, hsync, if_neg hne, Nat.mul_zero]
                omega

/-- The failures of a run. -/
theorem tally_failed (party : ι → π) (s : Clocks π ι χ) (steps : List (ClockStep ι χ)) :
    tally party (failed party) s steps ≤
      (stale party s).card + (Fintype.card ι - 1) * tally party (succeeded party) s steps := by
  induction steps generalizing s with
  | nil => exact Nat.zero_le _
  | cons a rest ih =>
      rw [tally, tally]
      cases hstep : s.step party a with
      | none => exact Nat.zero_le _
      | some s' =>
          have hone := failed_add_stale hstep
          have hrest := ih s'
          simp only [Option.map_some, Option.getD_some]
          rw [Nat.mul_add]
          omega

end Progress

end Clocks

/-- **`sync_lamport` is free of locks.**  In every run the rounds of its loops that fail because the clock has
changed are at most as many as those that succeed, times the number of other threads: no threads keep each other in
their loops without one of them leaving. -/
theorem sync_lamport_lock_free {π ι χ : Type} [DecidableEq π] [DecidableEq ι] [DecidableEq χ] [Fintype ι]
    (party : ι → π) (steps : List (ClockStep ι χ)) :
    Clocks.tally party (Clocks.failed party) .init steps ≤
      (Fintype.card ι - 1) * Clocks.tally party (Clocks.succeeded party) .init steps := by
  have hnone : Clocks.stale party (.init : Clocks π ι χ) = ∅ :=
    Finset.filter_false_of_mem fun _ _ => id
  have h := Clocks.tally_failed party .init steps
  rwa [hnone, Finset.card_empty, Nat.zero_add] at h

end Prac
