import Prac.Mpcops

/-!
# Correlated randomness (`mpcio.cpp`)

P2 deals triples to P0 and P1 while the three parties make the same requests, each at its own pace.

* `Request` — `request_nodeselecttriples`, `nodeselecttriple`, `valselecttriple`, `bitselecttriple` and
  `andtriple`.  A request that talks to P2 is left in its `yield()`, and coroutines are resumed in the order
  in which they yielded: an `Event` starts a request or resumes the oldest one.
* `Peer`, `Server` — the state of an `MPCTIO` at P0 or P1 and at P2, outside the online phase.
* `World`, `World.Step` — the three parties with the messages in flight.

What a player is handed is recorded with the number of the triple it comes from, counted as it receives
them.
-/

namespace Prac.Triples

/-- `SelectTriple<V>`: one half. -/
structure SelectTriple (V : Type) where
  X : Bool
  Y : V
  Z : V
  deriving DecidableEq

/-- `AndTriple`: one half. -/
structure AndTriple where
  X : Value
  Y : Value
  Z : Value
  deriving DecidableEq

/-- What one `queue_p0` or `queue_p1` sends. -/
inductive Item where
  | bit (X : Bool)
  | node (n : DPFnode)
  | value (v : Value)
  | andTriple (t : AndTriple)
  deriving DecidableEq

/-- A request to the `MPCTIO`. -/
inductive Request where
  | nodes (num : Nat)
  | node
  | val
  | bit
  | and
  deriving DecidableEq

/-- What a coroutine does between two of its yields. -/
inductive Event where
  | start (r : Request)
  | resume
  deriving DecidableEq

/-- A triple, or a bit of one, in the hands of a player: with the number of the triple, and the position of
the bit. -/
inductive Handed where
  | node (k : Nat) (t : SelectTriple DPFnode)
  | val (k : Nat) (t : SelectTriple Value)
  | bit (k pos : Nat) (t : SelectTriple Bool)
  | and (k : Nat) (t : AndTriple)
  deriving DecidableEq

/-- How many triples of each kind. -/
structure Deals where
  ands : Nat
  vals : Nat
  nodes : Nat
  deriving DecidableEq

/-- The triples that a request fetches from P2. -/
def Request.fetch (r : Request) (c : Deals) : Deals :=
  match r with
  | .nodes num => { c with nodes := c.nodes + num }
  | .node => { c with nodes := c.nodes + 1 }
  | .val => { c with vals := c.vals + 1 }
  | .bit | .and => { c with ands := c.ands + 1 }

/-! ## P2 -/

/-- What P2 draws for a select triple. -/
structure SelectDraw (V : Type) where
  X0 : Bool
  Y0 : V
  Z0 : V
  X1 : Bool
  Y1 : V

/-- What P2 draws for an AND triple. -/
structure AndDraw where
  X0 : Value
  Y0 : Value
  Z0 : Value
  X1 : Value
  Y1 : Value

/-- P2's randomness: the draws for the triples of each kind. -/
structure Randomness where
  and : Nat → AndDraw
  val : Nat → SelectDraw Value
  node : Nat → SelectDraw DPFnode

/-- `-value_t(X)`. -/
def valueMask (X : Bool) : Value := -BitVec.ofNat 64 X.toNat

/-- The half of a select triple for a player, with `ext` the sign extension. -/
def SelectDraw.half {w : Nat} (ext : Bool → BitVec w) (d : SelectDraw (BitVec w)) :
    Player → SelectTriple (BitVec w)
  | .p0 => ⟨d.X0, d.Y0, d.Z0⟩
  | .p1 => ⟨d.X1, d.Y1, ((ext d.X0 &&& d.Y1) ^^^ (ext d.X1 &&& d.Y0)) ^^^ d.Z0⟩

/-- The half of an AND triple for a player. -/
def AndDraw.half (d : AndDraw) : Player → AndTriple
  | .p0 => ⟨d.X0, d.Y0, d.Z0⟩
  | .p1 => ⟨d.X1, d.Y1, ((d.X0 &&& d.Y1) ^^^ (d.X1 &&& d.Y0)) ^^^ d.Z0⟩

namespace Randomness

variable (R : Randomness) (p : Player)

def nodeHalf (k : Nat) : SelectTriple DPFnode := (R.node k).half if128Mask p

def valHalf (k : Nat) : SelectTriple Value := (R.val k).half valueMask p

def andHalf (k : Nat) : AndTriple := (R.and k).half p

/-- What is queued for node triple number `k`. -/
def nodeItems (k : Nat) : List Item :=
  let t := R.nodeHalf p k
  [.bit t.X, .node t.Y, .node t.Z]

/-- What P2 queues to a player for a request, after the deals `c`. -/
def items (c : Deals) (r : Request) : List Item :=
  match r with
  | .nodes num => (List.range' c.nodes num).flatMap (R.nodeItems p)
  | .node => R.nodeItems p c.nodes
  | .val =>
    let t := R.valHalf p c.vals
    [.bit t.X, .value t.Y, .value t.Z]
  | .bit | .and => [.andTriple (R.andHalf p c.ands)]

end Randomness

/-- The state of P2. -/
structure Server where
  deals : Deals
  lastAndtripleBitsRemaining : Nat
  remainingNodesselecttriples : Nat
  suspended : List Request

namespace Server

/-- Before its `yield()` P2 draws the triples and queues their halves. -/
def deal (R : Randomness) (s : Server) (r : Request) : (Player → List Item) × Server :=
  (fun p => R.items p s.deals r, { s with
    deals := r.fetch s.deals
    suspended := s.suspended ++ [r] })

/-- A request up to its `yield()`, if it has one. -/
def start (R : Randomness) (s : Server) : Request → (Player → List Item) × Server
  | .node =>
    if s.remainingNodesselecttriples = 0 then s.deal R .node
    else (fun _ => [],
      { s with remainingNodesselecttriples := s.remainingNodesselecttriples - 1 })
  | .bit =>
    if s.lastAndtripleBitsRemaining = 0 then s.deal R .bit
    else (fun _ => [], { s with lastAndtripleBitsRemaining := s.lastAndtripleBitsRemaining - 1 })
  | r => s.deal R r

/-- The rest of a request after its `yield()`. -/
def finish (s : Server) : Request → Server
  | .nodes num => { s with remainingNodesselecttriples := s.remainingNodesselecttriples + num }
  | .node => { s with remainingNodesselecttriples := s.remainingNodesselecttriples + 1 - 1 }
  | .bit => { s with lastAndtripleBitsRemaining := 8 * 8 - 1 }
  | .val | .and => s

/-- One event at P2: what is queued to each player, and the new state. -/
def step (R : Randomness) (s : Server) : Event → (Player → List Item) × Server
  | .start r => s.start R r
  | .resume =>
    match s.suspended with
    | [] => (fun _ => [], s)
    | r :: rest => (fun _ => [], { s with suspended := rest }.finish r)

end Server

/-! ## P0 and P1 -/

/-- The state of P0 or P1. -/
structure Peer where
  received : Deals
  lastAndtriple : AndTriple
  lastNumber : Nat
  lastAndtripleBitsRemaining : Nat
  queuedNodeselecttriples : List (SelectTriple DPFnode)
  remainingNodesselecttriples : Nat
  suspended : List Request
  handed : List Handed

/-- The three `recv_server` of a node triple. -/
def recvNode : List Item → Option (SelectTriple DPFnode × List Item)
  | .bit X :: .node Y :: .node Z :: chan => some (⟨X, Y, Z⟩, chan)
  | _ => none

/-- The loop of `request_nodeselecttriples`. -/
def recvNodes : Nat → List Item → Option (List (SelectTriple DPFnode) × List Item)
  | 0, chan => some ([], chan)
  | num + 1, chan => do
    let (v, chan) ← recvNode chan
    let (vs, chan) ← recvNodes num chan
    some (v :: vs, chan)

/-- The three `recv_server` of a value triple. -/
def recvVal : List Item → Option (SelectTriple Value × List Item)
  | .bit X :: .value Y :: .value Z :: chan => some (⟨X, Y, Z⟩, chan)
  | _ => none

/-- The `recv_server` of an AND triple. -/
def recvAnd : List Item → Option (AndTriple × List Item)
  | .andTriple t :: chan => some (t, chan)
  | _ => none

namespace Peer

/-- A request goes into its `yield()`. -/
def suspend (s : Peer) (r : Request) : Peer := { s with suspended := s.suspended ++ [r] }

/-- The front of the queue is handed out. -/
def takeNode (s : Peer) : Peer :=
  match s.queuedNodeselecttriples with
  | [] => s
  | val :: rest => { s with
      queuedNodeselecttriples := rest
      remainingNodesselecttriples := s.remainingNodesselecttriples - 1
      handed := s.handed ++ [.node (s.received.nodes - s.queuedNodeselecttriples.length) val] }

/-- A bit of the last AND triple is handed out. -/
def takeBit (s : Peer) : Peer :=
  let pos := s.lastAndtripleBitsRemaining - 1
  { s with
    lastAndtripleBitsRemaining := pos
    handed := s.handed ++ [.bit s.lastNumber pos ⟨s.lastAndtriple.X.getLsbD pos,
      s.lastAndtriple.Y.getLsbD pos, s.lastAndtriple.Z.getLsbD pos⟩] }

/-- A request up to its `yield()`, or all of it if it has none. -/
def start (s : Peer) : Request → Peer
  | .node => if s.remainingNodesselecttriples = 0 then s.suspend .node else s.takeNode
  | .bit => if s.lastAndtripleBitsRemaining = 0 then s.suspend .bit else s.takeBit
  | r => s.suspend r

/-- The triples of a prefetch are put into the queue. -/
def storeNodes (s : Peer) (vs : List (SelectTriple DPFnode)) : Peer := { s with
  received := { s.received with nodes := s.received.nodes + vs.length }
  queuedNodeselecttriples := s.queuedNodeselecttriples ++ vs
  remainingNodesselecttriples := s.remainingNodesselecttriples + vs.length }

/-- The rest of a request after its `yield()`; `none` while the messages from P2 are not there, and if they
are not of the kind that is read. -/
def finish (s : Peer) (r : Request) (chan : List Item) : Option (Peer × List Item) :=
  match r with
  | .nodes num => do
    let (vs, chan) ← recvNodes num chan
    some (s.storeNodes vs, chan)
  | .node => do
    let (vs, chan) ← recvNodes 1 chan
    some ((s.storeNodes vs).takeNode, chan)
  | .val => do
    let (t, chan) ← recvVal chan
    some ({ s with
      received := Request.val.fetch s.received
      handed := s.handed ++ [.val s.received.vals t] }, chan)
  | .bit => do
    let (t, chan) ← recvAnd chan
    some ({ s with
      received := Request.bit.fetch s.received
      lastAndtriple := t
      lastNumber := s.received.ands
      lastAndtripleBitsRemaining := 8 * 8 }.takeBit, chan)
  | .and => do
    let (t, chan) ← recvAnd chan
    some ({ s with
      received := Request.and.fetch s.received
      handed := s.handed ++ [.and s.received.ands t] }, chan)

/-- One event at P0 or P1. -/
def step (s : Peer) : Event → List Item → Option (Peer × List Item)
  | .start r, chan => some (s.start r, chan)
  | .resume, chan =>
    match s.suspended with
    | [] => some (s, chan)
    | r :: rest => { s with suspended := rest }.finish r chan

end Peer

/-! ## The three parties -/

/-- The parties with the events still before each, and the messages in flight from P2. -/
structure World where
  server : Server
  serverTodo : List Event
  peer : Player → Peer
  todo : Player → List Event
  chan : Player → List Item

/-- All parties before the same events. -/
def World.init (events : List Event) : World where
  server := ⟨⟨0, 0, 0⟩, 0, 0, []⟩
  serverTodo := events
  peer := fun _ => ⟨⟨0, 0, 0⟩, ⟨0, 0, 0⟩, 0, 0, [], 0, [], []⟩
  todo := fun _ => events
  chan := fun _ => []

/-- One party makes its next event. -/
inductive World.Step (R : Randomness) : World → World → Prop where
  | server {w : World} {e : Event} {rest : List Event} (h : w.serverTodo = e :: rest) :
    Step R w { w with
      server := (w.server.step R e).2
      serverTodo := rest
      chan := fun p => w.chan p ++ (w.server.step R e).1 p }
  | peer {w : World} (p : Player) {e : Event} {rest : List Event} {s : Peer} {chan : List Item}
    (h : w.todo p = e :: rest) (hs : (w.peer p).step e (w.chan p) = some (s, chan)) :
    Step R w { w with
      peer := Function.update w.peer p s
      todo := Function.update w.todo p rest
      chan := Function.update w.chan p chan }

/-- What the parties can reach from the start, in any order of their steps. -/
inductive World.Reachable (R : Randomness) (events : List Event) : World → Prop where
  | init : Reachable R events (World.init events)
  | step {w w' : World} (h : Reachable R events w) (hstep : World.Step R w w') :
    Reachable R events w'

end Prac.Triples
