import Prac.Types
import Prac.Lib.Process

/-!
# Coroutines over the peer channel (`coroutine.hpp`, `corotypes.hpp`)

* `Coro` — a coroutine: its reads and writes on the peer channel, its `yield`s, and the groups that it
  passes to `run_coroutines`.
* `start`, `resume` — a coroutine up to its next `yield`.  A `coro_t` runs its body up to the first
  `yield` when it is constructed; `run_coroutines` then resumes those that are not finished, in order,
  between its own `yield`s, and returns after a round in which none was left.
* `Party`, `Step` — two parties, each running its top-level function over the two FIFO channels, in
  any interleaving.

A coroutine is named by the list of group numbers and places in the groups that lead to it.
-/

namespace Prac

open Channel

/-- The body of a coroutine, of a `coro_lambda_t`. -/
inductive Coro (α : Type) where
  | done
  | write (data : List α) (next : Coro α)
  | read (len : Nat) (next : List α → Coro α)
  | yield (next : Coro α)
  | runCoroutines (n : Nat) (coroutines : Fin n → Coro α) (next : Coro α)

/-- The name of a coroutine. -/
abbrev Label := List Nat

/-- A coroutine between two rounds: finished, at a `yield` of its own, or inside `run_coroutines`.
`group` counts the groups that it has run before. -/
inductive Run (α : Type) where
  | finished
  | paused (group : Nat) (next : Coro α)
  | running (group n : Nat) (coroutines : Fin n → Run α) (next : Coro α)

variable {α : Type}

/-- `if (c)`: the coroutine still has work to do. -/
def Run.alive : Run α → Bool
  | .finished => false
  | _ => true

/-- The body up to its first `yield`.  `emplace_back` constructs the coroutines of a group in order,
and `send_or_yield` comes before the first of them is resumed. -/
def start (label : Label) (group : Nat) : Coro α → Proc Label α (Run α)
  | .done => .pure .finished
  | .write data next => .write label data (start label group next)
  | .read len next => .read label len fun data => start label group (next data)
  | .yield next => .pure (.paused group next)
  | .runCoroutines n coroutines next =>
    (Proc.all n fun i => start (label ++ [group, i.val]) 0 (coroutines i)).bind fun runs =>
      .pure (.running group n runs next)

/-- One round: from where the coroutine stopped to its next `yield`.  The loop of `run_coroutines`
resumes what is alive; after a round that found nothing alive the body goes on. -/
def resume (label : Label) : Run α → Proc Label α (Run α)
  | .finished => .pure .finished
  | .paused group next => start label group next
  | .running group n coroutines next =>
    if ∃ i, (coroutines i).alive = true then
      (Proc.all n fun i =>
        if (coroutines i).alive then resume (label ++ [group, i.val]) (coroutines i)
        else .pure .finished).bind fun runs => .pure (.running group n runs next)
    else start label (group + 1) next

/-- A byte that a coroutine has read or written: the segment of the top-level function, the coroutine
and the byte. -/
structure Tagged (α : Type) where
  segment : Nat
  label : Label
  byte : α
  deriving DecidableEq

/-- One party: what is left of the current segment, the number of segments before it, the bytes read
and written, and the bytes from the peer that are still to be read. -/
structure Party (α : Type) where
  proc : Proc Label α (Run α)
  segment : Nat
  readLog : List (Tagged α)
  writeLog : List (Tagged α)
  inbox : List α

/-- The bytes of a message with their tags. -/
def tag (segment : Nat) (label : Label) (data : List α) : List (Tagged α) :=
  data.map fun byte => ⟨segment, label, byte⟩

/-- A party before its first operation. -/
def Party.init (c : Coro α) : Party α := ⟨start [] 0 c, 0, [], [], []⟩

/-- A party's next operation, with the bytes that it sends: `queue_peer`, `recv_peer`, which waits
for all of its bytes, and the `send` or `yield` between two segments. -/
def Party.next (party : Party α) : Option (Party α × List α) :=
  match party.proc with
  | .write label data next =>
    some ({ party with proc := next, writeLog := party.writeLog ++ tag party.segment label data }, data)
  | .read label len next =>
    if len ≤ party.inbox.length then
      let data := party.inbox.take len
      some ({ party with
        proc := next data
        readLog := party.readLog ++ tag party.segment label data
        inbox := party.inbox.drop len }, [])
    else none
  | .pure run =>
    if run.alive then
      some ({ party with proc := resume [] run, segment := party.segment + 1 }, [])
    else none

/-- The party receives bytes. -/
def Party.receive (party : Party α) (data : List α) : Party α :=
  { party with inbox := party.inbox ++ data }

/-- Party `p` takes its next step; what it sends reaches its peer. -/
inductive Step (p : Player) (parties : Player → Party α) : (Player → Party α) → Prop where
  | mk (party : Party α) (data : List α) (hnext : (parties p).next = some (party, data)) :
      Step p parties fun q => if q = p then party else (parties q).receive data

/-- The states that some interleaving of the two parties reaches. -/
inductive Reachable (c : Player → Coro α) : (Player → Party α) → Prop where
  | init : Reachable c fun p => .init (c p)
  | step {parties parties' : Player → Party α} (p : Player) (h : Reachable c parties)
      (hstep : Step p parties parties') : Reachable c parties'

end Prac
