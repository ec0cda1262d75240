import Mathlib.Data.List.Basic
import Mathlib.Logic.Relation
import Prac.SingleIo

/-!
# Runs of the buffered channel

* `Link` — the writing end, the bytes on the wire and the reading end, with the history of the calls.
  `Step` is any call at one end or the other, or the socket moving on (`Deliver`).
* `queued`, `stamped` — what the history says: the bytes queued, and the clock of each byte's message.
* `Flow` — the invariant: the bytes queued are those received, those buffered at the reading end, those in
  frames on the wire or on their way to it, and those in `dataqueue`, in this order.
* `exact_stream` — what follows for the bytes and for the reading party's clock.
-/

namespace Prac

/-- A call at the writing end. -/
inductive Call where
  | queue (data : List UInt8) (lamport : Lamport)
  | send

/-- The bytes queued. -/
def queued (calls : List Call) : List UInt8 :=
  calls.flatMap fun
    | .queue data _ => data
    | .send => []

/-- The clock at the first `queue` since the last explicit `send`, if there was one. -/
def clockAfter : Option Lamport → List Call → Option Lamport
  | clock, [] => clock
  | clock, .queue _ lamport :: calls => clockAfter (some (clock.getD lamport)) calls
  | _, .send :: calls => clockAfter none calls

/-- The bytes queued, each with the clock at the first `queue` since the explicit `send` before it. -/
def stamped : Option Lamport → List Call → List (UInt8 × Lamport)
  | _, [] => []
  | clock, .queue data lamport :: calls =>
    data.map (·, clock.getD lamport) ++ stamped (some (clock.getD lamport)) calls
  | _, .send :: calls => stamped none calls

/-- A call that queues a byte, or a `send`. -/
def Call.carries : Call → Bool
  | .queue data _ => !data.isEmpty
  | .send => true

@[simp] theorem queued_append (calls calls' : List Call) :
    queued (calls ++ calls') = queued calls ++ queued calls' :=
  List.flatMap_append

theorem stamped_fst (clock : Option Lamport) (calls : List Call) :
    (stamped clock calls).map Prod.fst = queued calls := by
  induction calls generalizing clock with
  | nil => rfl
  | cons call calls ih =>
    cases call with
    | queue data lamport =>
      rw [stamped, List.map_append, ih, List.map_map]
      exact congrArg (· ++ queued calls) (List.map_id data)
    | send => exact ih none

theorem stamped_append (clock : Option Lamport) (calls calls' : List Call) :
    stamped clock (calls ++ calls') = stamped clock calls ++ stamped (clockAfter clock calls) calls' := by
  induction calls generalizing clock with
  | nil => rfl
  | cons call calls ih =>
    cases call with
    | queue data lamport => rw [List.cons_append, stamped, ih, ← List.append_assoc]; rfl
    | send => exact ih none

theorem clockAfter_append (clock : Option Lamport) (calls calls' : List Call) :
    clockAfter clock (calls ++ calls') = clockAfter (clockAfter clock calls) calls' := by
  induction calls generalizing clock with
  | nil => rfl
  | cons call calls ih => cases call <;> exact ih _

/-- Both ends of a channel, and the socket between them. -/
structure Link where
  near : MPCSingleIo
  sock : List UInt8
  far : MPCSingleIo
  /-- The reading party's clock. -/
  lamport : Lamport
  calls : List Call
  received : List UInt8

namespace Link

/-- A new channel, where the reading party's clock may have advanced. -/
def init (lamport : Lamport) : Link := ⟨{}, [], {}, lamport, [], []⟩

/-- The writing end after a call. -/
def after (w : Link) (call : Call) (near : MPCSingleIo) : Link :=
  { w with near, calls := w.calls ++ [call] }

/-- The socket moves on: the running `async_write` writes a byte, or it is done. -/
inductive Deliver : Link → Link → Prop where
  | write {w : Link} (b : UInt8) (writing : List UInt8) (h : w.near.writing = b :: writing) :
    Deliver w { w with near := { w.near with writing }, sock := w.sock ++ [b] }
  | done {w : Link} (hqueue : w.near.messagequeue ≠ []) (h : w.near.writing = []) :
    Deliver w { w with near := w.near.onWritten }

/-- One step of a run.  No message reaches 2³² bytes and no clock wraps. -/
inductive Step : Link → Link → Prop where
  | queue {w : Link} (data : List UInt8) (lamport : Lamport) (near : MPCSingleIo) (newmsg : Nat)
      (hlen : w.near.dataqueue.length + data.length < 2 ^ 32) (hclock : lamport.toNat + 1 < 2 ^ 32)
      (h : w.near.queue data lamport = some (near, newmsg)) :
    Step w (w.after (.queue data lamport) near)
  | send {w : Link} (near : MPCSingleIo) (h : w.near.send false = some near) :
    Step w (w.after .send near)
  | deliver {w w' : Link} (h : Deliver w w') : Step w w'
  | recv {w : Link} (len res : Nat) (data sock : List UInt8) (far : MPCSingleIo) (lamport : Lamport)
      (h : w.far.recv w.lamport len w.sock = some ((data, res, far, lamport), sock)) :
    Step w { w with sock, far, lamport, received := w.received ++ data }
  | advance {w : Link} (lamport : Lamport) (h : w.lamport ≤ lamport) : Step w { w with lamport }

/-- The states of all runs. -/
def Reachable (w : Link) : Prop :=
  ∃ lamport, Relation.ReflTransGen Step (init lamport) w

/-- Where the bytes queued are. -/
structure Flow (w : Link) (got left : List (UInt8 × Lamport)) (frames : List Frame) : Prop where
  tidy : w.near.Tidy
  incoming : w.far.Incoming w.lamport left frames
  flight : w.sock ++ w.near.outgoing = frames.flatMap Frame.wire
  received : got.map Prod.fst = w.received
  clock : ∀ p ∈ got, p.2 < w.lamport
  stamped : stamped none w.calls = got ++ (left ++ frames.flatMap Frame.stamped) ++ w.near.stampedQueue
  pending : clockAfter none w.calls = w.near.messageLamport
  unsent : ∀ before after, w.calls = before ++ .send :: after →
    w.near.dataqueue.length ≤ (queued after).length

section Flow

variable {w : Link} {got left : List (UInt8 × Lamport)} {frames : List Frame}

theorem flow_init (lamport : Lamport) : (init lamport).Flow [] [] [] where
  tidy := ⟨fun _ => rfl, fun _ => rfl, by simp [init], nofun⟩
  incoming := ⟨rfl, le_refl _, nofun, nofun⟩
  flight := rfl
  received := rfl
  clock := nofun
  stamped := rfl
  pending := rfl
  unsent := fun _ _ _ => Nat.zero_le _

/-- A call that leaves some frames more, and so keeps the bytes it found and those it adds. -/
theorem Flow.call (h : w.Flow got left frames) {near : MPCSingleIo} {new : List Frame} (call : Call)
    (hemits : w.near.Emits near new)
    (hstamped : new.flatMap Frame.stamped ++ near.stampedQueue =
      w.near.stampedQueue ++ Prac.stamped w.near.messageLamport [call])
    (hpending : near.messageLamport = clockAfter w.near.messageLamport [call])
    (hunsent : near.dataqueue = [] ∨ call ≠ .send) :
    (w.after call near).Flow got left (frames ++ new) where
  tidy := hemits.tidy
  incoming := ⟨h.incoming.bytes, h.incoming.remain, h.incoming.lamport, fun f hf =>
    (List.mem_append.1 hf).elim (h.incoming.sized f) (hemits.sized f)⟩
  flight := by
    show w.sock ++ near.outgoing = _
    rw [hemits.outgoing, ← List.append_assoc, h.flight, List.flatMap_append]
  received := h.received
  clock := h.clock
  stamped := by
    show Prac.stamped none (w.calls ++ [call]) = _ ++ near.stampedQueue
    rw [stamped_append, h.stamped, h.pending, List.append_assoc, ← hstamped, List.flatMap_append]
    simp only [List.append_assoc]
  pending := by
    show clockAfter none (w.calls ++ [call]) = near.messageLamport
    rw [clockAfter_append, h.pending, hpending]
  unsent := by
    intro before after hcalls
    show near.dataqueue.length ≤ _
    have hcalls : w.calls ++ [call] = before ++ .send :: after := hcalls
    rcases hunsent with hempty | hqueue
    · rw [hempty]
      exact Nat.zero_le _
    · obtain rfl | ⟨after', last, rfl⟩ := List.eq_nil_or_concat' after
      · exact absurd (List.append_inj_right' hcalls rfl) (by simpa using hqueue)
      · rw [← List.cons_append, ← List.append_assoc] at hcalls
        obtain ⟨hbefore, hlast⟩ := List.append_inj' hcalls rfl
        have hlen := congrArg List.length hstamped
        have hkept := h.unsent before after' hbefore
        rw [List.cons.inj hlast |>.1] at hlen
        have hdata := congrArg List.length (stamped_fst w.near.messageLamport [last])
        simp only [List.length_append, List.length_map, MPCSingleIo.stampedQueue] at hlen hdata
        rw [queued_append, List.length_append]
        omega

theorem Flow.queue (h : w.Flow got left frames) {data : List UInt8} {lamport : Lamport}
    {near : MPCSingleIo} {newmsg : Nat} (hlen : w.near.dataqueue.length + data.length < 2 ^ 32)
    (hclock : lamport.toNat + 1 < 2 ^ 32) (hqueue : w.near.queue data lamport = some (near, newmsg)) :
    ∃ frames', (w.after (.queue data lamport) near).Flow got left frames' := by
  obtain ⟨io', newmsg', new, hqueue', hemits, hstamped, hlamport⟩ :=
    MPCSingleIo.queue_spec h.tidy hlen hclock
  rw [hqueue'] at hqueue
  cases hqueue
  refine ⟨_, h.call (.queue data lamport) hemits ?_ hlamport (.inr nofun)⟩
  rw [hstamped, Prac.stamped, Prac.stamped, List.append_nil]

theorem Flow.send (h : w.Flow got left frames) {near : MPCSingleIo}
    (hsend : w.near.send false = some near) :
    ∃ frames', (w.after .send near).Flow got left frames' := by
  obtain ⟨io', new, hsend', hemits, hstamped, hempty, hlamport⟩ := MPCSingleIo.send_spec h.tidy false
  rw [hsend'] at hsend
  cases hsend
  refine ⟨_, h.call .send hemits ?_ hlamport (.inl hempty)⟩
  rw [hstamped, MPCSingleIo.stampedQueue, MPCSingleIo.stampedQueue, hempty]
  rfl

/-- The socket keeps what is on its way. -/
theorem Flow.deliver (h : w.Flow got left frames) {w' : Link} (hstep : Deliver w w') :
    w'.Flow got left frames := by
  cases hstep with
  | write b writing hwriting =>
    refine { h with tidy := ⟨fun hqueue => ?_, h.tidy.held, h.tidy.short, h.tidy.lamport⟩, flight := ?_ }
    · cases hwriting.symm.trans (h.tidy.idle hqueue)
    · rw [← h.flight, MPCSingleIo.outgoing, MPCSingleIo.outgoing, hwriting]
      simp
  | done hqueue hwriting =>
    obtain ⟨htidy, hout, hdata, hlamport⟩ := MPCSingleIo.onWritten_spec h.tidy hqueue hwriting
    exact { h with
      tidy := htidy
      flight := (congrArg (w.sock ++ ·) hout).trans h.flight
      stamped := by rw [MPCSingleIo.stampedQueue, hdata, hlamport, h.stamped, MPCSingleIo.stampedQueue]
      pending := h.pending.trans hlamport.symm
      unsent := fun before after hcalls => by
        rw [hdata]
        exact h.unsent before after hcalls }

/-- `recv` takes the next bytes. -/
theorem Flow.recv (h : w.Flow got left frames) {len res : Nat} {data sock : List UInt8}
    {far : MPCSingleIo} {lamport : Lamport}
    (hrecv : w.far.recv w.lamport len w.sock = some ((data, res, far, lamport), sock)) :
    w.lamport ≤ lamport ∧ ∃ got' left' frames',
      Flow { w with sock, far, lamport, received := w.received ++ data } got' left' frames' := by
  have hfull := MPCSingleIo.recv_stable w.far w.lamport len hrecv w.near.outgoing
  rw [h.flight] at hfull
  have hlen : len ≤ (left ++ frames.flatMap Frame.stamped).length := by
    by_contra hshort
    rw [MPCSingleIo.recv_none h.incoming (Nat.lt_of_not_le hshort)] at hfull
    cases hfull
  obtain ⟨taken, io', lamport', left', frames', htaken, hincoming, hle, hclock, -, hall⟩ :=
    MPCSingleIo.recv_spec h.incoming hlen
  rw [htaken] at hfull
  simp only [Option.some.injEq, Prod.mk.injEq] at hfull
  obtain ⟨⟨rfl, rfl, rfl, rfl⟩, hsock⟩ := hfull
  refine ⟨hle, got ++ taken, left', frames', h.tidy, hincoming, hsock.symm, ?_, ?_, ?_, h.pending, h.unsent⟩
  · rw [List.map_append, h.received]
  · intro p hp
    rcases List.mem_append.1 hp with hp | hp
    · exact UInt32.lt_of_lt_of_le (h.clock p hp) hle
    · exact hclock p hp
  · rw [h.stamped, ← hall]
    simp only [List.append_assoc]

theorem Flow.advance (h : w.Flow got left frames) {lamport : Lamport} (hle : w.lamport ≤ lamport) :
    Flow { w with lamport } got left frames :=
  { h with
    incoming := { h.incoming with lamport := fun p hp => UInt32.lt_of_lt_of_le (h.incoming.lamport p hp) hle }
    clock := fun p hp => UInt32.lt_of_lt_of_le (h.clock p hp) hle }

end Flow

theorem Flow.step {w w' : Link} {got left : List (UInt8 × Lamport)} {frames : List Frame}
    (h : w.Flow got left frames) (hstep : Step w w') :
    ∃ (got' left' : List (UInt8 × Lamport)) (frames' : List Frame), w'.Flow got' left' frames' := by
  cases hstep with
  | queue data lamport near newmsg hlen hclock hqueue =>
    obtain ⟨frames', h'⟩ := h.queue hlen hclock hqueue
    exact ⟨got, left, frames', h'⟩
  | send near hsend =>
    obtain ⟨frames', h'⟩ := h.send hsend
    exact ⟨got, left, frames', h'⟩
  | deliver hdeliver => exact ⟨got, left, frames, h.deliver hdeliver⟩
  | recv len res data sock far lamport hrecv => exact (h.recv hrecv).2
  | advance lamport hle => exact ⟨got, left, frames, h.advance hle⟩

theorem Flow.lamport_le {w w' : Link} {got left : List (UInt8 × Lamport)} {frames : List Frame}
    (h : w.Flow got left frames) (hstep : Step w w') : w.lamport ≤ w'.lamport := by
  cases hstep with
  | queue => exact UInt32.le_refl _
  | send => exact UInt32.le_refl _
  | deliver hdeliver => cases hdeliver <;> exact UInt32.le_refl _
  | recv len res data sock far lamport hrecv => exact (h.recv hrecv).1
  | advance lamport hle => exact hle

theorem Reachable.flow {w : Link} (h : w.Reachable) :
    ∃ (got left : List (UInt8 × Lamport)) (frames : List Frame), w.Flow got left frames := by
  obtain ⟨lamport, hrun⟩ := h
  induction hrun with
  | refl => exact ⟨[], [], [], flow_init lamport⟩
  | tail hrun hstep ih =>
    obtain ⟨got, left, frames, hflow⟩ := ih
    exact hflow.step hstep

/-- One `async_write` can always run to its end. -/
theorem exists_written (w : Link) :
    Relation.ReflTransGen Deliver w
      { w with near := { w.near with writing := [] }, sock := w.sock ++ w.near.writing } := by
  induction hwriting : w.near.writing generalizing w with
  | nil =>
    rw [List.append_nil, ← hwriting]
  | cons b writing ih =>
    have hrest := ih { w with near := { w.near with writing }, sock := w.sock ++ [b] } rfl
    rw [List.append_assoc] at hrest
    exact .head (.write b writing hwriting) hrest

theorem Flow.delivers {w w' : Link} {got left : List (UInt8 × Lamport)} {frames : List Frame}
    (h : w.Flow got left frames) (hrun : Relation.ReflTransGen Deliver w w') :
    w'.Flow got left frames := by
  induction hrun with
  | refl => exact h
  | tail hrun hstep ih => exact ih.deliver hstep

/-- The socket can always take everything that is on its way. -/
theorem Flow.exists_delivered {w : Link} {got left : List (UInt8 × Lamport)} {frames : List Frame}
    (h : w.Flow got left frames) :
    ∃ w' : Link, Relation.ReflTransGen Deliver w w' ∧ w'.near.outgoing = [] ∧ w'.calls = w.calls ∧
      w'.near.dataqueue = w.near.dataqueue := by
  induction hn : w.near.messagequeue.length generalizing w with
  | zero =>
    have hqueue : w.near.messagequeue = [] := List.length_eq_zero_iff.1 hn
    refine ⟨w, .refl, ?_, rfl, rfl⟩
    rw [MPCSingleIo.outgoing, h.tidy.idle hqueue, hqueue]
    rfl
  | succ n ih =>
    have hqueue : w.near.messagequeue ≠ [] := List.ne_nil_of_length_eq_add_one hn
    let flushed : Link :=
      { w with near := { w.near with writing := [] }, sock := w.sock ++ w.near.writing }
    let next : Link := { flushed with near := flushed.near.onWritten }
    have hrun : Relation.ReflTransGen Deliver w next := .tail (exists_written w) (.done hqueue rfl)
    have hless : next.near.messagequeue.length = n := by
      rw [MPCSingleIo.onWritten_messagequeue, List.length_tail]
      show w.near.messagequeue.length - 1 = n
      omega
    obtain ⟨-, -, hdata, -⟩ :=
      MPCSingleIo.onWritten_spec (h.delivers (exists_written w)).tidy hqueue rfl
    obtain ⟨w', hrun', hout, hcalls, hdata'⟩ := ih (h.delivers hrun) hless
    exact ⟨w', hrun.trans hrun', hout, hcalls, hdata'.trans hdata⟩

/-- Neither `queue` nor `send` reads a clock that is not there. -/
theorem Reachable.calls_succeed {w : Link} (h : w.Reachable) (implicitSend : Bool) :
    (w.near.send implicitSend).isSome := by
  obtain ⟨got, left, frames, hflow⟩ := h.flow
  obtain ⟨io', new, hsend, -⟩ := MPCSingleIo.send_spec hflow.tidy implicitSend
  rw [hsend]
  rfl

/-- What an explicit `send` has put on its way can be received. -/
theorem Flow.exists_recv {w : Link} {got left : List (UInt8 × Lamport)} {frames : List Frame}
    (h : w.Flow got left frames) {before after : List Call} (hcalls : w.calls = before ++ .send :: after)
    {len : Nat} (hlen : w.received.length + len ≤ (queued before).length) :
    ∃ (w' : Link) (far : MPCSingleIo) (lamport : Lamport) (sock : List UInt8),
      Relation.ReflTransGen Deliver w w' ∧
      w'.far.recv w'.lamport len w'.sock =
        some ((((queued before).drop w.received.length).take len, len, far, lamport), sock) := by
  obtain ⟨w', hrun, hout, -, -⟩ := h.exists_delivered
  have h' := h.delivers hrun
  have hsock : w'.sock = frames.flatMap Frame.wire := by
    rw [← h'.flight, hout, List.append_nil]
  have hbytes : queued before ++ queued after =
      w.received ++ (left ++ frames.flatMap Frame.stamped).map Prod.fst ++ w.near.dataqueue := by
    have hfst := congrArg (List.map Prod.fst) h.stamped
    rw [stamped_fst, List.map_append, List.map_append, h.received, hcalls] at hfst
    simpa [queued, MPCSingleIo.stampedQueue, Function.comp_def] using hfst
  have hkept := h.unsent before after hcalls
  have hcount := congrArg List.length hbytes
  simp only [List.length_append, List.length_map] at hcount
  have hlen' : len ≤ (left ++ frames.flatMap Frame.stamped).length := by
    rw [List.length_append]
    omega
  obtain ⟨taken, far, lamport, left', frames', hrecv, -, -, -, hlength, hall⟩ :=
    MPCSingleIo.recv_spec h'.incoming hlen'
  refine ⟨w', far, lamport, frames'.flatMap Frame.wire, hrun, ?_⟩
  have htaken : ((queued before).drop w.received.length).take len = taken.map Prod.fst := by
    have hdrop := congrArg (fun bytes => (bytes.drop w.received.length).take len) hbytes
    rw [List.drop_append_of_le_length (by omega),
      List.take_append_of_le_length (by rw [List.length_drop]; omega), ← hall, List.append_assoc,
      List.drop_left, List.map_append, List.append_assoc,
      List.take_left' (by rw [List.length_map, hlength])] at hdrop
    exact hdrop
  rw [hsock, hrecv, htaken]

/-- The bytes received are the bytes queued, in order, and everything that was explicitly sent arrives;
the reading party's clock is past that of every message it has read a byte of; no step takes it back. -/
theorem exact_stream {w : Link} (h : w.Reachable) :
    w.received <+: queued w.calls ∧
    (∀ before after, w.calls = before ++ .send :: after →
      ∀ len, w.received.length + len ≤ (queued before).length →
        ∃ (w' : Link) (far : MPCSingleIo) (lamport : Lamport) (sock : List UInt8),
          Relation.ReflTransGen Deliver w w' ∧
          w'.far.recv w'.lamport len w'.sock =
            some ((((queued before).drop w.received.length).take len, len, far, lamport), sock)) ∧
    (∀ p ∈ (stamped none w.calls).take w.received.length, p.2 < w.lamport) ∧
    ∀ w', Step w w' → w.lamport ≤ w'.lamport := by
  obtain ⟨got, left, frames, hflow⟩ := h.flow
  have hcount : got.length = w.received.length := by rw [← hflow.received, List.length_map]
  refine ⟨?_, fun before after hcalls len hlen => hflow.exists_recv hcalls hlen, ?_, ?_⟩
  · rw [← stamped_fst none, hflow.stamped, List.append_assoc, List.map_append, hflow.received]
    exact List.prefix_append _ _
  · rw [hflow.stamped, List.append_assoc, List.take_left' hcount]
    exact hflow.clock
  · intro w' hstep
    exact hflow.lamport_le hstep

theorem Deliver.calls_received {w w' : Link} (h : Relation.ReflTransGen Deliver w w') :
    w'.calls = w.calls ∧ w'.received = w.received := by
  induction h with
  | refl => exact ⟨rfl, rfl⟩
  | tail _ hstep ih => cases hstep <;> exact ih

/-- The second of three `queue`s sends what is there, without a `send`: the bytes of both messages can be
received as one, and the reading party's clock is then past that of the first `queue`. -/
theorem exact_stream_implicit :
    let data := List.replicate 28801 (7 : UInt8)
    ∃ w : Link, w.Reachable ∧ w.calls = [.queue [1, 2, 3] 5, .queue data 6, .queue [8, 9] 7, .send] ∧
      w.received = [1, 2, 3] ++ data ++ [8, 9] ∧ w.received <+: queued w.calls ∧ 5 < w.lamport := by
  -- only the length of the data matters
  obtain ⟨data, hlen, hdata⟩ : ∃ data : List UInt8, data.length = 28801 ∧ List.replicate 28801 7 = data :=
    ⟨_, List.length_replicate, rfl⟩
  dsimp only
  rw [hdata]
  let full : MessageWithHeader := .make ([1, 2, 3] ++ data) 5
  let near1 : MPCSingleIo := { dataqueue := [1, 2, 3], messageLamport := some 5 }
  let near2 : MPCSingleIo := { messagequeue := [full], messageLamport := some 5, writing := full.tosend }
  let near3 : MPCSingleIo := { near2 with dataqueue := [8, 9] }
  let near4 : MPCSingleIo := { messagequeue := [full, .make [8, 9] 5], writing := full.tosend }
  let sent : Link := ⟨near4, [], {}, 0,
    [.queue [1, 2, 3] 5, .queue data 6, .queue [8, 9] 7, .send], []⟩
  have hqueue : near1.queue data 6 = some (near2, 0) := by
    simp [near1, near2, full, MPCSingleIo.queue, MPCSingleIo.send, MPCSingleIo.asyncSendFromMsgqueue, hlen]
  have hsend : near3.send false = some near4 := rfl
  have hsent : Relation.ReflTransGen Step (init 0) sent :=
    .tail (.tail (.tail (.tail .refl
      (.queue [1, 2, 3] 5 near1 1 (by decide) (by decide) rfl))
      (.queue data 6 near2 0 (by simp [near1, init, after, hlen]) (by decide) hqueue))
      (.queue [8, 9] 7 near3 0 (show 0 + 2 < 2 ^ 32 by decide) (by decide) rfl))
      (.send near4 hsend)
  obtain ⟨w, far, lamport, sock, hdelivered, hrecv⟩ := (exact_stream ⟨0, hsent⟩).2.1
    [.queue [1, 2, 3] 5, .queue data 6, .queue [8, 9] 7] [] rfl 28806 (by simp [sent, queued, hlen])
  obtain ⟨hcalls, hreceived⟩ := Deliver.calls_received hdelivered
  have hbytes : ((queued [.queue [1, 2, 3] 5, .queue data 6, .queue [8, 9] 7]).drop
      sent.received.length).take 28806 = [1, 2, 3] ++ data ++ [8, 9] := by
    simp [sent, queued, hlen]
  rw [hbytes] at hrecv
  have hread : Link.Reachable { w with
      sock, far, lamport, received := w.received ++ ([1, 2, 3] ++ data ++ [8, 9]) } :=
    ⟨0, .tail (hsent.trans (Relation.ReflTransGen.mono (fun _ _ => Step.deliver) _ _ hdelivered))
      (.recv 28806 28806 _ _ _ _ hrecv)⟩
  obtain ⟨hinorder, -, hclock, -⟩ := exact_stream hread
  refine ⟨_, hread, hcalls, ?_, hinorder, hclock (1, 5) ?_⟩
  · rw [hreceived]
    rfl
  · rw [hcalls, hreceived]
    exact List.Mem.head _

/-- A `queue` of no bytes at clock 5 fixes the clock of the message, whose first byte is queued at clock
9: the reading party's clock is 6 once it has the byte. -/
theorem stamp_of_first_byte_unsound :
    ∃ w : Link, w.Reachable ∧
      ∃ p ∈ (stamped none (w.calls.filter Call.carries)).take w.received.length, ¬ p.2 < w.lamport := by
  let sent : Link :=
    ⟨{ messagequeue := [.make [7] 5], writing := Frame.wire ⟨[7], 5⟩ }, [], {}, 0,
      [.queue [] 5, .queue [7] 9, .send], []⟩
  have hsent : Relation.ReflTransGen Step (init 0) sent :=
    .tail (.tail (.tail .refl
      (.queue [] 5 { messageLamport := some 5 } 1 (by decide) (by decide) rfl))
      (.queue [7] 9 { dataqueue := [7], messageLamport := some 5 } 0 (by decide) (by decide) rfl))
      (.send sent.near rfl)
  have hwritten : Relation.ReflTransGen Step sent _ :=
    Relation.ReflTransGen.mono (fun _ _ => Step.deliver) _ _ (exists_written sent)
  have hfill : ({} : MPCSingleIo).recvFill 0 (Frame.wire ⟨[7], 5⟩) =
      some (({ recvdata := [7], recvdataremain := 1 }, 6), []) :=
    (MPCSingleIo.recvFill_of_header rfl rfl).trans (MPCSingleIo.recvFill_of_pos Nat.one_pos 6 [])
  have hrecv := MPCSingleIo.recv_of_fill Nat.one_pos hfill (MPCSingleIo.recv_zero _ 6 [])
  refine ⟨_, ⟨0, .tail (hsent.trans hwritten) (.recv 1 1 [7] [] _ 6 hrecv)⟩, (7, 9), ?_, by decide⟩
  exact List.mem_singleton.2 rfl

end Link

end Prac
