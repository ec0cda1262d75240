import Mathlib.Data.List.TakeDrop
import Prac.Lib.Bytes

/-!
# The buffered channel between two parties (`mpcio.hpp`, `mpcio.cpp`)

* `MessageWithHeader` — a message and its header: length and Lamport clock, four bytes each.
* `MPCSingleIo` — the two buffers of one end, with `queue`, `send` and `recv`, and the `async_write` that
  empties `messagequeue` into the socket.
* `Frame` — a message as it travels.  `queue_spec` and `send_spec` say which frames the writing end adds to
  those it has still to write (`outgoing`), `recv_spec` what the reading end makes of frames.
-/

namespace Prac

open Bytes

/-- `lamport_t`. -/
abbrev Lamport := UInt32

structure MessageWithHeader where
  header : List UInt8
  message : List UInt8

/-- The constructor of `MessageWithHeader`. -/
def MessageWithHeader.make (msg : List UInt8) (lamport : Lamport) : MessageWithHeader :=
  let msglen := UInt32.ofNat msg.length
  ⟨leBytes 4 msglen.toNat ++ leBytes 4 lamport.toNat, msg⟩

/-- The length of a message of 2³² bytes does not fit: its header announces an empty one. -/
theorem MessageWithHeader.make_header_wraps {msg : List UInt8} (h : msg.length = 2 ^ 32)
    (lamport : Lamport) : (make msg lamport).header = (make [] lamport).header := by
  have hlen : UInt32.ofNat msg.length = UInt32.ofNat 0 := by
    rw [h]
    exact UInt32.toNat_inj.1 (by simp)
  simp only [make, hlen, List.length_nil]

/-- The two buffers that `async_write` is given. -/
def MessageWithHeader.tosend (m : MessageWithHeader) : List UInt8 :=
  m.header ++ m.message

/-- The members of an `MPCSingleIO`, less its socket.  `writing` is what the running `async_write`, if
any, has not put on the wire yet. -/
structure MPCSingleIo where
  dataqueue : List UInt8 := []
  messagequeue : List MessageWithHeader := []
  messageLamport : Option Lamport := none
  writing : List UInt8 := []
  recvdata : List UInt8 := []
  recvdataremain : Nat := 0

namespace MPCSingleIo

/-- `async_send_from_msgqueue`: launch an `async_write` of the first message. -/
def asyncSendFromMsgqueue (io : MPCSingleIo) : MPCSingleIo :=
  { io with writing := (io.messagequeue.head?.map MessageWithHeader.tosend).getD [] }

/-- The completion handler of the `async_write`. -/
def onWritten (io : MPCSingleIo) : MPCSingleIo :=
  let io := { io with messagequeue := io.messagequeue.tail }
  if 0 < io.messagequeue.length then io.asyncSendFromMsgqueue else io

/-- `send`.  It fails where `message_lamport.value()` throws. -/
def send (io : MPCSingleIo) (implicitSend : Bool) : Option MPCSingleIo :=
  if io.dataqueue.length = 0 then
    some (if implicitSend then io else { io with messageLamport := none })
  else
    io.messageLamport.map fun lamport =>
      let io := { io with
        dataqueue := []
        messagequeue := io.messagequeue ++ [.make io.dataqueue lamport]
        messageLamport := if implicitSend then io.messageLamport else none }
      if io.messagequeue.length = 1 then io.asyncSendFromMsgqueue else io

/-- `queue`, with the number of new messages that it returns. -/
def queue (io : MPCSingleIo) (data : List UInt8) (lamport : Lamport) : Option (MPCSingleIo × Nat) :=
  let newmsg := if io.messageLamport.isNone then 1 else 0
  let io := { io with
    dataqueue := io.dataqueue ++ data
    messageLamport := some (io.messageLamport.getD lamport) }
  -- more than a few packets' worth is sent at once
  if io.dataqueue.length > 28800 then
    (io.send true).map fun io => (io, newmsg)
  else
    some (io, newmsg)

/-- One round of the inner loop of `recv`: read a header, and the message if it has one.  It fails where
the socket has to wait for more bytes. -/
def recvHeader (io : MPCSingleIo) (lamport : Lamport) : Reader (MPCSingleIo × Lamport) := do
  let datalen ← takeLe 4
  let recvLamport ← takeLe 4
  let newLamport := UInt32.ofNat recvLamport + 1
  let lamport := if lamport < newLamport then newLamport else lamport
  if datalen > 0 then
    let recvdata ← take datalen
    return ({ io with recvdata, recvdataremain := datalen }, lamport)
  else
    return (io, lamport)

/-- A header is at least eight bytes. -/
theorem recvHeader_length {io : MPCSingleIo} {lamport : Lamport} {sock rest : List UInt8}
    {p : MPCSingleIo × Lamport} (h : io.recvHeader lamport sock = some (p, rest)) :
    rest.length < sock.length := by
  obtain ⟨datalen, mid, hdatalen, hafter⟩ := bind_eq_some.1 h
  obtain ⟨recvLamport, mid', hlamport, hbody⟩ := bind_eq_some.1 hafter
  obtain ⟨block, rfl, hblock, -⟩ := takeLe_eq_some.1 hdatalen
  obtain ⟨block', rfl, hblock', -⟩ := takeLe_eq_some.1 hlamport
  simp only [List.length_append]
  split at hbody
  · obtain ⟨recvdata, mid'', htake, hdone⟩ := bind_eq_some.1 hbody
    obtain ⟨rfl, -⟩ := take_eq_some.1 htake
    cases hdone
    simp only [List.length_append]
    omega
  · cases hbody
    omega

/-- The inner loop of `recv`: headers until there is something to read. -/
def recvFill (io : MPCSingleIo) (lamport : Lamport) : Reader (MPCSingleIo × Lamport) := fun sock =>
  if io.recvdataremain = 0 then
    match h : io.recvHeader lamport sock with
    | none => none
    | some (p, rest) =>
      have := recvHeader_length h
      recvFill p.1 p.2 rest
  else
    some ((io, lamport), sock)
termination_by sock => sock.length

theorem recvFill_remain {io : MPCSingleIo} {lamport : Lamport} {sock rest : List UInt8}
    {p : MPCSingleIo × Lamport} (h : io.recvFill lamport sock = some (p, rest)) :
    0 < p.1.recvdataremain := by
  fun_induction recvFill io lamport sock with
  | case1 io lamport sock hremain hnone => cases h
  | case2 io lamport sock hremain p' rest' hsome hshort ih => exact ih h
  | case3 io lamport sock hremain =>
    cases h
    exact Nat.pos_of_ne_zero hremain

/-- `recv`, with the bytes it copies, their number and the clock it leaves. -/
def recv (io : MPCSingleIo) (lamport : Lamport) (len : Nat) :
    Reader (List UInt8 × Nat × MPCSingleIo × Lamport) := fun sock =>
  if len > 0 then
    match h : io.recvFill lamport sock with
    | none => none
    | some ((io, lamport), sock) =>
      have : 0 < io.recvdataremain := recvFill_remain h
      let amttoread := min len io.recvdataremain
      let chunk := (io.recvdata.drop (io.recvdata.length - io.recvdataremain)).take amttoread
      match recv { io with recvdataremain := io.recvdataremain - amttoread } lamport
          (len - amttoread) sock with
      | none => none
      | some ((data, res, io, lamport), sock) => some ((chunk ++ data, amttoread + res, io, lamport), sock)
  else
    some (([], 0, io, lamport), sock)
termination_by _ => len
decreasing_by omega

/-- What is still to be written to the socket. -/
def outgoing (io : MPCSingleIo) : List UInt8 :=
  io.writing ++ io.messagequeue.tail.flatMap MessageWithHeader.tosend

/-- What `recv` returns before it reads another header. -/
def unread (io : MPCSingleIo) : List UInt8 :=
  io.recvdata.drop (io.recvdata.length - io.recvdataremain)

end MPCSingleIo

/-- A message and its Lamport clock. -/
structure Frame where
  body : List UInt8
  lamport : Lamport

namespace Frame

def wire (f : Frame) : List UInt8 :=
  (MessageWithHeader.make f.body f.lamport).tosend

/-- Not empty, of a length that the header can hold, and under a clock that does not wrap. -/
structure Sized (f : Frame) : Prop where
  nonempty : f.body ≠ []
  length : f.body.length < 2 ^ 32
  lamport : f.lamport.toNat + 1 < 2 ^ 32

/-- The bytes, each with the clock. -/
def stamped (f : Frame) : List (UInt8 × Lamport) :=
  f.body.map (·, f.lamport)

@[simp] theorem stamped_fst (f : Frame) : f.stamped.map Prod.fst = f.body := by
  simp only [stamped, List.map_map]
  exact List.map_id _

theorem wire_eq {f : Frame} (h : f.Sized) :
    f.wire = leBytes 4 f.body.length ++ leBytes 4 f.lamport.toNat ++ f.body := by
  have hlen : (UInt32.ofNat f.body.length).toNat = f.body.length := by
    rw [UInt32.toNat_ofNat', Nat.mod_eq_of_lt h.length]
  simp only [wire, MessageWithHeader.make, MessageWithHeader.tosend, hlen]

end Frame

namespace MPCSingleIo

/-- The bytes still in `dataqueue`, each with the clock of the message that it will be part of. -/
def stampedQueue (io : MPCSingleIo) : List (UInt8 × Lamport) :=
  io.dataqueue.map (·, io.messageLamport.getD 0)

/-- What `queue` and `send` keep true of the writing end: `async_write` runs whenever there is a message,
and data in the buffer has its clock. -/
structure Tidy (io : MPCSingleIo) : Prop where
  idle : io.messagequeue = [] → io.writing = []
  held : io.messageLamport = none → io.dataqueue = []
  short : io.dataqueue.length < 2 ^ 32
  lamport : ∀ l, io.messageLamport = some l → l.toNat + 1 < 2 ^ 32

/-- One end after some frames more. -/
structure Emits (io io' : MPCSingleIo) (frames : List Frame) : Prop where
  tidy : io'.Tidy
  outgoing : io'.outgoing = io.outgoing ++ frames.flatMap Frame.wire
  sized : ∀ f ∈ frames, f.Sized

/-- A message at the end of the queue, written at once if it is the first. -/
theorem outgoing_emplace {io : MPCSingleIo} (hidle : io.messagequeue = [] → io.writing = [])
    (m : MessageWithHeader) :
    let io' := { io with messagequeue := io.messagequeue ++ [m] }
    (if io'.messagequeue.length = 1 then io'.asyncSendFromMsgqueue else io').outgoing =
      io.outgoing ++ m.tosend := by
  cases hqueue : io.messagequeue with
  | nil => simp [outgoing, asyncSendFromMsgqueue, hqueue, hidle hqueue]
  | cons first rest => simp [outgoing, hqueue]

/-- Launching an `async_write` changes `writing` only. -/
theorem launch_eq (io : MPCSingleIo) (c : Prop) [Decidable c] :
    ∃ writing, (if c then io.asyncSendFromMsgqueue else io) = { io with writing } := by
  split
  · exact ⟨_, rfl⟩
  · exact ⟨io.writing, rfl⟩

/-- `send` puts what is in the buffer into one frame. -/
theorem send_spec {io : MPCSingleIo} (h : io.Tidy) (implicitSend : Bool) :
    ∃ io' frames, io.send implicitSend = some io' ∧ Emits io io' frames ∧
      frames.flatMap Frame.stamped = io.stampedQueue ∧ io'.dataqueue = [] ∧
      io'.messageLamport = (if implicitSend then io.messageLamport else none) := by
  by_cases hempty : io.dataqueue = []
  · refine ⟨if implicitSend then io else { io with messageLamport := none }, [], ?_, ⟨?_, ?_, ?_⟩, ?_, ?_, ?_⟩
    · simp [send, hempty]
    · cases implicitSend
      · exact ⟨h.idle, fun _ => hempty, h.short, nofun⟩
      · exact h
    · cases implicitSend <;> simp [outgoing]
    · exact nofun
    · simp [stampedQueue, hempty]
    · cases implicitSend <;> exact hempty
    · cases implicitSend <;> rfl
  · obtain ⟨l, hl⟩ : ∃ l, io.messageLamport = some l :=
      Option.ne_none_iff_exists'.1 fun hnone => hempty (h.held hnone)
    let kept := { io with
      dataqueue := []
      messageLamport := if implicitSend then io.messageLamport else none }
    have hemplace := @outgoing_emplace kept h.idle (.make io.dataqueue l)
    obtain ⟨writing, hlaunch⟩ := launch_eq
      { kept with messagequeue := kept.messagequeue ++ [.make io.dataqueue l] }
      ((kept.messagequeue ++ [MessageWithHeader.make io.dataqueue l]).length = 1)
    have hsend : io.send implicitSend =
        some { kept with messagequeue := kept.messagequeue ++ [.make io.dataqueue l], writing } := by
      rw [← hlaunch, send, if_neg (by simpa using hempty), hl, Option.map_some, ← hl]
    refine ⟨_, [⟨io.dataqueue, l⟩], hsend, ⟨⟨?_, fun _ => rfl, by simp [kept], ?_⟩, ?_, ?_⟩, ?_, rfl, rfl⟩
    · intro hqueue
      exact absurd hqueue (List.append_ne_nil_of_right_ne_nil _ (List.cons_ne_nil _ _))
    · intro l' hl'
      cases implicitSend
      · cases hl'
      · exact h.lamport l' hl'
    · simp only [hlaunch] at hemplace
      rw [hemplace, List.flatMap_singleton]
      rfl
    · intro f hf
      obtain rfl := List.mem_singleton.1 hf
      exact ⟨hempty, h.short, h.lamport l hl⟩
    · simp [Frame.stamped, stampedQueue, hl]

/-- `queue` keeps the data, in frames or in the buffer. -/
theorem queue_spec {io : MPCSingleIo} (h : io.Tidy) {data : List UInt8} {lamport : Lamport}
    (hlen : io.dataqueue.length + data.length < 2 ^ 32) (hclock : lamport.toNat + 1 < 2 ^ 32) :
    ∃ io' newmsg frames, io.queue data lamport = some (io', newmsg) ∧ Emits io io' frames ∧
      frames.flatMap Frame.stamped ++ io'.stampedQueue =
        io.stampedQueue ++ data.map (·, io.messageLamport.getD lamport) ∧
      io'.messageLamport = some (io.messageLamport.getD lamport) := by
  let filled := { io with
    dataqueue := io.dataqueue ++ data
    messageLamport := some (io.messageLamport.getD lamport) }
  have hstamped : filled.stampedQueue =
      io.stampedQueue ++ data.map (·, io.messageLamport.getD lamport) := by
    cases hl : io.messageLamport with
    | none => simp [filled, stampedQueue, hl, h.held hl]
    | some l => simp [filled, stampedQueue, hl]
  have htidy : filled.Tidy := by
    refine ⟨h.idle, nofun, by simpa [filled] using hlen, ?_⟩
    intro l' hl'
    cases hl : io.messageLamport with
    | none =>
      simp only [filled, hl, Option.getD_none, Option.some.injEq] at hl'
      exact hl' ▸ hclock
    | some l =>
      simp only [filled, hl, Option.getD_some, Option.some.injEq] at hl'
      exact hl' ▸ h.lamport l hl
  by_cases hfull : filled.dataqueue.length > 28800
  · obtain ⟨io', frames, hsend, hemits, hframes, hempty, hlamport⟩ := send_spec htidy true
    refine ⟨io', if io.messageLamport.isNone then 1 else 0, frames, ?_,
      ⟨hemits.tidy, hemits.outgoing, hemits.sized⟩, ?_, hlamport⟩
    · rw [queue, if_pos hfull, hsend, Option.map_some]
    · simp only [hframes, stampedQueue, hempty, List.map_nil, List.append_nil]
      exact hstamped
  · exact ⟨filled, if io.messageLamport.isNone then 1 else 0, [], by rw [queue, if_neg hfull],
      ⟨htidy, by simp [filled, outgoing], nofun⟩, hstamped, rfl⟩

theorem onWritten_messagequeue (io : MPCSingleIo) : io.onWritten.messagequeue = io.messagequeue.tail := by
  obtain ⟨writing, hlaunch⟩ := launch_eq { io with messagequeue := io.messagequeue.tail }
    (0 < io.messagequeue.tail.length)
  rw [onWritten, hlaunch]

/-- The completion handler starts on the next message. -/
theorem onWritten_spec {io : MPCSingleIo} (h : io.Tidy) (hqueue : io.messagequeue ≠ [])
    (hwriting : io.writing = []) :
    io.onWritten.Tidy ∧ io.onWritten.outgoing = io.outgoing ∧
      io.onWritten.dataqueue = io.dataqueue ∧ io.onWritten.messageLamport = io.messageLamport := by
  obtain ⟨m, rest, hrest⟩ := List.exists_cons_of_ne_nil hqueue
  cases rest with
  | nil =>
    have hdone : io.onWritten = { io with messagequeue := [] } := by
      simp [onWritten, hrest]
    rw [hdone]
    refine ⟨⟨fun _ => hwriting, h.held, h.short, h.lamport⟩, ?_, rfl, rfl⟩
    rw [outgoing, outgoing, hrest]
    rfl
  | cons next rest =>
    have hdone : io.onWritten = { io with messagequeue := next :: rest, writing := next.tosend } := by
      simp [onWritten, asyncSendFromMsgqueue, hrest]
    rw [hdone]
    refine ⟨⟨nofun, h.held, h.short, h.lamport⟩, ?_, rfl, rfl⟩
    rw [outgoing, outgoing, hrest, hwriting]
    rfl

/-! ### The reading end -/

/-- The clock after a header. -/
def later (lamport sent : Lamport) : Lamport :=
  if lamport < sent + 1 then sent + 1 else lamport

theorem le_later (lamport sent : Lamport) : lamport ≤ later lamport sent := by
  rw [later]
  split
  next h => exact UInt32.le_of_lt h
  next => exact UInt32.le_refl _

theorem lt_later {lamport sent : Lamport} (h : sent.toNat + 1 < 2 ^ 32) : sent < later lamport sent := by
  have hsucc : (sent + 1).toNat = sent.toNat + 1 := by
    rw [UInt32.toNat_add, show (1 : UInt32).toNat = 1 from rfl, Nat.mod_eq_of_lt h]
  rw [later]
  split
  next => rw [UInt32.lt_iff_toNat_lt]; omega
  next hle => rw [UInt32.lt_iff_toNat_lt] at hle ⊢; omega

/-- What `recvHeader` does with a frame. -/
theorem recvHeader_wire {f : Frame} (h : f.Sized) (io : MPCSingleIo) (lamport : Lamport) :
    Reads (io.recvHeader lamport) f.wire
      ({ io with recvdata := f.body, recvdataremain := f.body.length }, later lamport f.lamport) := by
  have hpos : f.body.length > 0 := List.length_pos_iff.2 h.nonempty
  rw [Frame.wire_eq h, List.append_assoc]
  refine (Reads.takeLe h.length).bind ((Reads.takeLe f.lamport.toNat_lt).bind ?_)
  rw [if_pos hpos, UInt32.ofNat_toNat]
  exact (Reads.take f.body).map _

theorem recvHeader_stable (io : MPCSingleIo) (lamport : Lamport) : Stable (io.recvHeader lamport) := by
  refine Stable.bind (Stable.takeLe 4) fun datalen => Stable.bind (Stable.takeLe 4) fun recvLamport => ?_
  show Stable (if datalen > 0 then _ else _)
  split
  · exact Stable.bind (Stable.take datalen) fun recvdata => Stable.pure _
  · exact Stable.pure _

theorem recvFill_of_pos {io : MPCSingleIo} (h : 0 < io.recvdataremain) (lamport : Lamport)
    (sock : List UInt8) : io.recvFill lamport sock = some ((io, lamport), sock) := by
  rw [recvFill, if_neg h.ne']

theorem recvFill_of_header {io io' : MPCSingleIo} {lamport lamport' : Lamport} {sock rest : List UInt8}
    (h : io.recvdataremain = 0) (hheader : io.recvHeader lamport sock = some ((io', lamport'), rest)) :
    io.recvFill lamport sock = io'.recvFill lamport' rest := by
  rw [recvFill, if_pos h]
  split
  next hnone => rw [hheader] at hnone; cases hnone
  next p rest' hsome => rw [hheader] at hsome; cases hsome; rfl

theorem recvFill_of_none {io : MPCSingleIo} {lamport : Lamport} {sock : List UInt8}
    (h : io.recvdataremain = 0) (hheader : io.recvHeader lamport sock = none) :
    io.recvFill lamport sock = none := by
  rw [recvFill, if_pos h]
  split
  next => rfl
  next p rest' hsome => rw [hheader] at hsome; cases hsome

theorem recvFill_stable (io : MPCSingleIo) (lamport : Lamport) : Stable (io.recvFill lamport) := by
  intro bytes rest p h more
  fun_induction recvFill io lamport bytes with
  | case1 io lamport bytes hremain hnone => cases h
  | case2 io lamport bytes hremain p' rest' hsome hshort ih =>
    rw [recvFill_of_header hremain (recvHeader_stable io lamport hsome more)]
    exact ih h
  | case3 io lamport bytes hremain =>
    cases h
    exact recvFill_of_pos (Nat.pos_of_ne_zero hremain) lamport _

/-- `recv` copies what it can of one message and goes on. -/
theorem recv_of_fill {io io' io'' : MPCSingleIo} {lamport lamport' lamport'' : Lamport} {len res : Nat}
    {sock rest rest' data : List UInt8} (hlen : 0 < len)
    (hfill : io.recvFill lamport sock = some ((io', lamport'), rest))
    (hrest : { io' with recvdataremain := io'.recvdataremain - min len io'.recvdataremain }.recv lamport'
      (len - min len io'.recvdataremain) rest = some ((data, res, io'', lamport''), rest')) :
    io.recv lamport len sock = some ((io'.unread.take (min len io'.recvdataremain) ++ data,
      min len io'.recvdataremain + res, io'', lamport''), rest') := by
  rw [recv, if_pos hlen]
  split
  next hnone => rw [hfill] at hnone; cases hnone
  next io₁ lamport₁ rest₁ hsome =>
    rw [hfill] at hsome
    cases hsome
    simp only [hrest]
    rfl

theorem recv_of_fill_none {io : MPCSingleIo} {lamport : Lamport} {len : Nat} {sock : List UInt8}
    (hlen : 0 < len) (hfill : io.recvFill lamport sock = none) : io.recv lamport len sock = none := by
  rw [recv, if_pos hlen]
  split
  next => rfl
  next io₁ lamport₁ rest₁ hsome => rw [hfill] at hsome; cases hsome

theorem recv_of_rest_none {io io' : MPCSingleIo} {lamport lamport' : Lamport} {len : Nat}
    {sock rest : List UInt8} (hlen : 0 < len)
    (hfill : io.recvFill lamport sock = some ((io', lamport'), rest))
    (hrest : { io' with recvdataremain := io'.recvdataremain - min len io'.recvdataremain }.recv lamport'
      (len - min len io'.recvdataremain) rest = none) :
    io.recv lamport len sock = none := by
  rw [recv, if_pos hlen]
  split
  next hnone => rfl
  next io₁ lamport₁ rest₁ hsome =>
    rw [hfill] at hsome
    cases hsome
    simp only [hrest]

@[simp] theorem recv_zero (io : MPCSingleIo) (lamport : Lamport) (sock : List UInt8) :
    io.recv lamport 0 sock = some (([], 0, io, lamport), sock) := by
  rw [recv, if_neg (Nat.lt_irrefl 0)]

theorem recv_stable (io : MPCSingleIo) (lamport : Lamport) (len : Nat) :
    Stable (io.recv lamport len) := by
  induction len using Nat.strong_induction_on generalizing io lamport with
  | h len ih =>
    intro bytes rest p h more
    rcases Nat.eq_zero_or_pos len with rfl | hlen
    · rw [recv_zero] at h
      cases h
      exact recv_zero io lamport _
    · cases hfill : io.recvFill lamport bytes with
      | none =>
        rw [recv_of_fill_none hlen hfill] at h
        cases h
      | some q =>
        obtain ⟨⟨io', lamport'⟩, mid⟩ := q
        have hremain : 0 < io'.recvdataremain := recvFill_remain hfill
        have hless : len - min len io'.recvdataremain < len := by omega
        cases hrest : { io' with recvdataremain := io'.recvdataremain - min len io'.recvdataremain }.recv
            lamport' (len - min len io'.recvdataremain) mid with
        | none =>
          rw [recv_of_rest_none hlen hfill hrest] at h
          cases h
        | some q' =>
          obtain ⟨⟨data, res, io'', lamport''⟩, rest'⟩ := q'
          rw [recv_of_fill hlen hfill hrest] at h
          cases h
          exact recv_of_fill hlen (recvFill_stable io lamport hfill more) (ih _ hless _ _ hrest more)

/-- What the reading end has still to return: bytes in its buffer, each with its clock, and frames. -/
structure Incoming (io : MPCSingleIo) (lamport : Lamport) (left : List (UInt8 × Lamport))
    (frames : List Frame) : Prop where
  bytes : left.map Prod.fst = io.unread
  remain : io.recvdataremain ≤ io.recvdata.length
  lamport : ∀ p ∈ left, p.2 < lamport
  sized : ∀ f ∈ frames, f.Sized

section Incoming

variable {io : MPCSingleIo} {lamport : Lamport} {left : List (UInt8 × Lamport)} {frames : List Frame}

theorem Incoming.length (h : io.Incoming lamport left frames) : left.length = io.recvdataremain := by
  have hlen := congrArg List.length h.bytes
  have hremain := h.remain
  rw [List.length_map, unread, List.length_drop] at hlen
  omega

/-- A part of the buffer is returned. -/
theorem Incoming.drop (h : io.Incoming lamport left frames) {n : Nat} (hn : n ≤ io.recvdataremain) :
    { io with recvdataremain := io.recvdataremain - n }.Incoming lamport (left.drop n) frames := by
  have hremain := h.remain
  have hstart : io.recvdata.length - io.recvdataremain + n =
      io.recvdata.length - (io.recvdataremain - n) := by omega
  refine ⟨?_, le_trans (Nat.sub_le _ _) hremain, fun p hp => h.lamport p (List.mem_of_mem_drop hp), h.sized⟩
  rw [List.map_drop, h.bytes, unread, List.drop_drop, hstart]
  rfl

/-- The first frame is read into the buffer. -/
theorem Incoming.load {f : Frame} (h : io.Incoming lamport left (f :: frames)) :
    { io with recvdata := f.body, recvdataremain := f.body.length }.Incoming (later lamport f.lamport)
      f.stamped frames := by
  refine ⟨by simp [unread], le_refl _, ?_, fun g hg => h.sized g (List.mem_cons_of_mem f hg)⟩
  intro p hp
  obtain ⟨b, -, rfl⟩ := List.mem_map.1 hp
  exact lt_later (h.sized f List.mem_cons_self).lamport

/-- The inner loop reads at most one frame. -/
theorem recvFill_spec (h : io.Incoming lamport left frames)
    (hsome : left ++ frames.flatMap Frame.stamped ≠ []) :
    ∃ (io' : MPCSingleIo) (lamport' : Lamport) (left' : List (UInt8 × Lamport)) (frames' : List Frame),
      io.recvFill lamport (frames.flatMap Frame.wire) =
        some ((io', lamport'), frames'.flatMap Frame.wire) ∧
      io'.Incoming lamport' left' frames' ∧ lamport ≤ lamport' ∧
      left' ++ frames'.flatMap Frame.stamped = left ++ frames.flatMap Frame.stamped := by
  rcases Nat.eq_zero_or_pos io.recvdataremain with hremain | hremain
  · obtain rfl : left = [] := List.length_eq_zero_iff.1 (h.length.trans hremain)
    cases frames with
    | nil => exact absurd rfl hsome
    | cons f fs =>
      have hf := h.sized f List.mem_cons_self
      have hheader := recvHeader_wire hf io lamport (fs.flatMap Frame.wire)
      refine ⟨_, _, f.stamped, fs, ?_, h.load, le_later _ _, rfl⟩
      rw [List.flatMap_cons, recvFill_of_header hremain hheader]
      exact recvFill_of_pos (List.length_pos_iff.2 hf.nonempty) _ _
  · exact ⟨io, lamport, left, frames, recvFill_of_pos hremain _ _, h, UInt32.le_refl _, rfl⟩

/-- `recv` returns the next bytes, as many as it was asked for. -/
theorem recv_spec {len : Nat} (h : io.Incoming lamport left frames)
    (hlen : len ≤ (left ++ frames.flatMap Frame.stamped).length) :
    ∃ (taken : List (UInt8 × Lamport)) (io' : MPCSingleIo) (lamport' : Lamport)
      (left' : List (UInt8 × Lamport)) (frames' : List Frame),
      io.recv lamport len (frames.flatMap Frame.wire) =
        some ((taken.map Prod.fst, len, io', lamport'), frames'.flatMap Frame.wire) ∧
      io'.Incoming lamport' left' frames' ∧ lamport ≤ lamport' ∧ (∀ p ∈ taken, p.2 < lamport') ∧
      taken.length = len ∧
      taken ++ (left' ++ frames'.flatMap Frame.stamped) = left ++ frames.flatMap Frame.stamped := by
  induction len using Nat.strong_induction_on generalizing io lamport left frames with
  | h len ih =>
    rcases Nat.eq_zero_or_pos len with rfl | hpos
    · exact ⟨[], io, lamport, left, frames, recv_zero io lamport _, h, UInt32.le_refl _, nofun, rfl, rfl⟩
    · have hsome : left ++ frames.flatMap Frame.stamped ≠ [] := by
        rintro hnil
        rw [hnil, List.length_nil] at hlen
        omega
      obtain ⟨io₁, lamport₁, left₁, frames₁, hfill, h₁, hle, hleft⟩ := recvFill_spec h hsome
      have hremain : 0 < io₁.recvdataremain := recvFill_remain hfill
      have hbuffer := h₁.length
      let amt := min len io₁.recvdataremain
      have hamt : amt = min len io₁.recvdataremain := rfl
      have hrest : len - amt ≤ (left₁.drop amt ++ frames₁.flatMap Frame.stamped).length := by
        rw [← hleft, List.length_append] at hlen
        rw [List.length_append, List.length_drop]
        omega
      obtain ⟨taken, io₂, lamport₂, left₂, frames₂, hrecv, h₂, hle₂, htaken, hcount, hall⟩ :=
        ih (len - amt) (by omega) (h₁.drop (min_le_right len io₁.recvdataremain)) hrest
      refine ⟨left₁.take amt ++ taken, io₂, lamport₂, left₂, frames₂, ?_, h₂,
        UInt32.le_trans hle hle₂, ?_, ?_, ?_⟩
      · rw [recv_of_fill hpos hfill hrecv, List.map_append, List.map_take, h₁.bytes,
          Nat.add_sub_cancel' (min_le_left len _)]
      · intro p hp
        rcases List.mem_append.1 hp with hp | hp
        · exact UInt32.lt_of_lt_of_le (h₁.lamport p (List.mem_of_mem_take hp)) hle₂
        · exact htaken p hp
      · rw [List.length_append, List.length_take, hcount]
        omega
      · rw [List.append_assoc, hall, ← List.append_assoc, List.take_append_drop, hleft]

/-- `recv` waits where there are not enough bytes. -/
theorem recv_none {len : Nat} (h : io.Incoming lamport left frames)
    (hlen : (left ++ frames.flatMap Frame.stamped).length < len) :
    io.recv lamport len (frames.flatMap Frame.wire) = none := by
  induction len using Nat.strong_induction_on generalizing io lamport left frames with
  | h len ih =>
    have hpos : 0 < len := Nat.zero_lt_of_lt hlen
    by_cases hsome : left ++ frames.flatMap Frame.stamped = []
    · obtain ⟨rfl, hframes⟩ := List.append_eq_nil_iff.1 hsome
      cases frames with
      | nil =>
        refine recv_of_fill_none hpos (recvFill_of_none h.length.symm ?_)
        cases hheader : io.recvHeader lamport ([].flatMap Frame.wire) with
        | none => rfl
        | some p => exact absurd (@recvHeader_length _ _ _ p.2 _ hheader) (Nat.not_lt_zero _)
      | cons f fs =>
        have hf := (h.sized f List.mem_cons_self).nonempty
        simp [Frame.stamped, hf] at hframes
    · obtain ⟨io₁, lamport₁, left₁, frames₁, hfill, h₁, -, hleft⟩ := recvFill_spec h hsome
      have hremain : 0 < io₁.recvdataremain := recvFill_remain hfill
      have hbuffer := h₁.length
      refine recv_of_rest_none hpos hfill
        (ih _ (by omega) (h₁.drop (min_le_right len io₁.recvdataremain)) ?_)
      rw [← hleft, List.length_append] at hlen
      rw [List.length_append, List.length_drop]
      omega

end Incoming

end MPCSingleIo

end Prac
