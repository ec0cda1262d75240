import Prac.Triples
import Mathlib.Data.List.Nodup

/-!
# Correlated randomness stays matched

* `Ledger` — what has been handed out, without the values: `Source` names a triple or a bit position.
  `Ledger.Inv.step`: nothing is handed out twice.
* `Peer.Realises`, `Server.Realises` — a player's state and P2's state are those of a ledger.
  `peer_step`: a player that reads the stream of its triples makes the step of the ledger, and what is left is
  the stream again.
* `World.Inv` — the parties are at their places in one sequence of events, and what is in flight to a player is
  the part of its stream between P2's place and its own.
* `triples_matched` — in every reachable state the triples handed to P0 and P1 match.
-/

namespace Prac.Triples

/-! ## The ledger -/

/-- Where something handed out comes from. -/
inductive Source where
  | node (k : Nat)
  | val (k : Nat)
  | bit (k pos : Nat)
  | and (k : Nat)
  deriving DecidableEq

/-- The part of a triple that is used up at once. -/
inductive Slot where
  | node (k : Nat)
  | val (k : Nat)
  | andBit (k pos : Nat)
  deriving DecidableEq

/-- What is used up by handing something out. -/
def Source.slots : Source → List Slot
  | .node k => [.node k]
  | .val k => [.val k]
  | .bit k pos => [.andBit k pos]
  | .and k => (List.range 64).map (.andBit k)

/-- The bookkeeping that all parties do alike, and what has been handed out. -/
structure Ledger where
  received : Deals
  lastNumber : Nat
  bits : Nat
  queued : Nat
  suspended : List Request
  handed : List Source

namespace Ledger

def init : Ledger := ⟨⟨0, 0, 0⟩, 0, 0, 0, [], []⟩

def takeNode (L : Ledger) : Ledger := { L with
  queued := L.queued - 1
  handed := L.handed ++ [.node (L.received.nodes - L.queued)] }

def takeBit (L : Ledger) : Ledger := { L with
  bits := L.bits - 1
  handed := L.handed ++ [.bit L.lastNumber (L.bits - 1)] }

/-- Whether a request goes into a `yield()`. -/
def Asks (L : Ledger) : Request → Prop
  | .node => L.queued = 0
  | .bit => L.bits = 0
  | _ => True

instance (L : Ledger) (r : Request) : Decidable (L.Asks r) := by
  cases r <;> unfold Asks <;> infer_instance

/-- A request that does not have to ask P2. -/
def take (L : Ledger) : Request → Ledger
  | .node => L.takeNode
  | _ => L.takeBit

/-- A request after its triples have come. -/
def finish (L : Ledger) (r : Request) : Ledger :=
  let L' := { L with received := r.fetch L.received }
  match r with
  | .nodes num => { L' with queued := L.queued + num }
  | .node => { L' with queued := L.queued + 1 }.takeNode
  | .val => { L' with handed := L.handed ++ [.val L.received.vals] }
  | .bit => { L' with lastNumber := L.received.ands, bits := 64 }.takeBit
  | .and => { L' with handed := L.handed ++ [.and L.received.ands] }

/-- One event. -/
def step (L : Ledger) : Event → Ledger
  | .start r => if L.Asks r then { L with suspended := L.suspended ++ [r] } else L.take r
  | .resume =>
    match L.suspended with
    | [] => L
    | r :: rest => { L with suspended := rest }.finish r

theorem step_asks {L : Ledger} {r : Request} (h : L.Asks r) :
    L.step (.start r) = { L with suspended := L.suspended ++ [r] } := if_pos h

theorem step_take {L : Ledger} {r : Request} (h : ¬L.Asks r) : L.step (.start r) = L.take r := if_neg h

theorem step_resume {L : Ledger} {r : Request} {rest : List Request} (h : L.suspended = r :: rest) :
    L.step .resume = { L with suspended := rest }.finish r := by
  rw [step, h]

theorem step_idle {L : Ledger} (h : L.suspended = []) : L.step .resume = L := by
  rw [step, h]

/-- The requests that an event, and a sequence of events, asks P2 for. -/
def asked (L : Ledger) : Event → List Request
  | .start r => if L.Asks r then [r] else []
  | .resume => []

def asks (L : Ledger) : List Event → List Request
  | [] => []
  | e :: es => L.asked e ++ (L.step e).asks es

/-- All events of a sequence. -/
def run (L : Ledger) (es : List Event) : Ledger := es.foldl step L

theorem run_concat (L : Ledger) (es : List Event) (e : Event) :
    L.run (es ++ [e]) = (L.run es).step e := List.foldl_concat ..

theorem run_append (L : Ledger) (es es' : List Event) : L.run (es ++ es') = (L.run es).run es' :=
  List.foldl_append ..

/-! ### Nothing is handed out twice -/

/-- The part of a triple that has been used up, or may have been. -/
def Spent (L : Ledger) : Slot → Prop
  | .node k => k + L.queued < L.received.nodes
  | .val k => k < L.received.vals
  | .andBit k pos => k < L.received.ands ∧ (k = L.lastNumber → L.bits ≤ pos)

/-- Everything handed out is spent, once. -/
structure Inv (L : Ledger) : Prop where
  queued_le : L.queued ≤ L.received.nodes
  lastNumber_lt : 0 < L.bits → L.lastNumber < L.received.ands
  spent : ∀ x ∈ L.handed.flatMap Source.slots, L.Spent x
  nodup : (L.handed.flatMap Source.slots).Nodup

theorem Inv.init : Inv init := ⟨le_rfl, fun h => absurd h (lt_irrefl 0), by simp [Ledger.init],
  by simp [Ledger.init]⟩

/-- Handing out something that is not spent yet, and is afterwards. -/
theorem Inv.hand {L L' : Ledger} (h : L.Inv) {x : Source} (hhanded : L'.handed = L.handed ++ [x])
    (hqueued : L'.queued ≤ L'.received.nodes)
    (hlast : 0 < L'.bits → L'.lastNumber < L'.received.ands)
    (hmono : ∀ s, L.Spent s → L'.Spent s) (hx : ∀ s ∈ x.slots, ¬L.Spent s ∧ L'.Spent s)
    (hnodup : x.slots.Nodup) : L'.Inv := by
  have hsplit : L'.handed.flatMap Source.slots = L.handed.flatMap Source.slots ++ x.slots := by
    rw [hhanded, List.flatMap_append, List.flatMap_singleton]
  refine ⟨hqueued, hlast, fun s hs => ?_, ?_⟩
  · rw [hsplit] at hs
    rcases List.mem_append.mp hs with hold | hnew
    · exact hmono s (h.spent s hold)
    · exact (hx s hnew).2
  · rw [hsplit, List.nodup_append]
    refine ⟨h.nodup, hnodup, ?_⟩
    rintro s hold t hnew rfl
    exact (hx s hnew).1 (h.spent s hold)

theorem Inv.takeNode {L : Ledger} (h : L.Inv) (hq : L.queued ≠ 0) : L.takeNode.Inv := by
  have hle := h.queued_le
  refine h.hand rfl ?_ h.lastNumber_lt ?_ ?_ (List.nodup_singleton _)
  · show L.queued - 1 ≤ L.received.nodes
    omega
  · rintro (k | k | ⟨k, pos⟩) hs
    · exact (Nat.add_le_add_left (Nat.sub_le _ _) k).trans_lt hs
    · exact hs
    · exact hs
  · intro s hs
    obtain rfl : s = .node (L.received.nodes - L.queued) := List.mem_singleton.mp hs
    constructor
    · show ¬L.received.nodes - L.queued + L.queued < L.received.nodes
      omega
    · show L.received.nodes - L.queued + (L.queued - 1) < L.received.nodes
      omega

theorem Inv.takeBit {L : Ledger} (h : L.Inv) (hb : L.bits ≠ 0) : L.takeBit.Inv := by
  have hlt := h.lastNumber_lt (Nat.pos_of_ne_zero hb)
  refine h.hand rfl h.queued_le (fun _ => hlt) ?_ ?_ (List.nodup_singleton _)
  · rintro (k | k | ⟨k, pos⟩) hs
    · exact hs
    · exact hs
    · exact ⟨hs.1, fun hk => (Nat.sub_le _ _).trans (hs.2 hk)⟩
  · intro s hs
    obtain rfl : s = .andBit L.lastNumber (L.bits - 1) := List.mem_singleton.mp hs
    refine ⟨fun hspent => ?_, hlt, fun _ => le_rfl⟩
    have hle : L.bits ≤ L.bits - 1 := hspent.2 rfl
    omega

/-- Triples that have come are not spent yet. -/
theorem Inv.fetch {L L' : Ledger} (h : L.Inv) (hhanded : L'.handed = L.handed)
    (hands : L.received.ands ≤ L'.received.ands) (hvals : L'.received.vals = L.received.vals)
    (hnodes : L'.received.nodes + L.queued = L.received.nodes + L'.queued)
    (hlast : 0 < L'.bits → L'.lastNumber < L'.received.ands)
    (hbits : ∀ k pos, k < L.received.ands → (k = L.lastNumber → L.bits ≤ pos) →
      k = L'.lastNumber → L'.bits ≤ pos) : L'.Inv := by
  have hle := h.queued_le
  refine ⟨by omega, hlast, fun s hs => ?_, hhanded ▸ h.nodup⟩
  have hold := h.spent s (hhanded ▸ hs)
  cases s with
  | node k =>
      show k + L'.queued < L'.received.nodes
      have hk : k + L.queued < L.received.nodes := hold
      omega
  | val k =>
      show k < L'.received.vals
      rw [hvals]
      exact hold
  | andBit k pos => exact ⟨hold.1.trans_le hands, hbits k pos hold.1 hold.2⟩

/-- A whole triple that has come is handed out. -/
theorem Inv.handFresh {L L' : Ledger} (h : L.Inv) {x : Source} (hhanded : L'.handed = L.handed ++ [x])
    (hqueued : L'.queued = L.queued) (hnodes : L'.received.nodes = L.received.nodes)
    (hvals : L.received.vals ≤ L'.received.vals) (hands : L.received.ands ≤ L'.received.ands)
    (hlast : L'.lastNumber = L.lastNumber) (hbits : L'.bits = L.bits)
    (hx : ∀ s ∈ x.slots, ¬L.Spent s ∧ L'.Spent s) (hnodup : x.slots.Nodup) : L'.Inv := by
  refine h.hand hhanded ?_ ?_ ?_ hx hnodup
  · rw [hqueued, hnodes]
    exact h.queued_le
  · intro hpos
    rw [hlast]
    exact (h.lastNumber_lt (hbits ▸ hpos)).trans_le hands
  · rintro (k | k | ⟨k, pos⟩) hs
    · show k + L'.queued < L'.received.nodes
      rw [hqueued, hnodes]
      exact hs
    · exact hs.trans_le hvals
    · refine ⟨hs.1.trans_le hands, fun hk => ?_⟩
      rw [hbits]
      exact hs.2 (hk.trans hlast)

theorem slots_and_nodup (k : Nat) : (Source.and k).slots.Nodup :=
  List.nodup_range.map fun _ _ hij => (Slot.andBit.inj hij).2

theorem Inv.finish {L : Ledger} (h : L.Inv) (r : Request) : (L.finish r).Inv := by
  cases r with
  | nodes num =>
      refine h.fetch rfl le_rfl rfl ?_ h.lastNumber_lt fun _ _ _ hs => hs
      show L.received.nodes + num + L.queued = L.received.nodes + (L.queued + num)
      omega
  | node =>
      refine Inv.takeNode (h.fetch rfl le_rfl rfl ?_ h.lastNumber_lt fun _ _ _ hs => hs) ?_
      · show L.received.nodes + 1 + L.queued = L.received.nodes + (L.queued + 1)
        omega
      · exact Nat.succ_ne_zero _
  | val =>
      refine h.handFresh rfl rfl rfl (Nat.le_succ _) le_rfl rfl rfl ?_ (List.nodup_singleton _)
      intro s hs
      obtain rfl : s = .val L.received.vals := List.mem_singleton.mp hs
      exact ⟨lt_irrefl _, Nat.lt_succ_self _⟩
  | bit =>
      refine Inv.takeBit (h.fetch rfl (Nat.le_succ _) rfl rfl (fun _ => Nat.lt_succ_self _) ?_) ?_
      · intro k pos hk _ heq
        exact absurd (heq ▸ hk) (lt_irrefl _)
      · show (64 : Nat) ≠ 0
        decide
  | and =>
      refine h.handFresh rfl rfl rfl le_rfl (Nat.le_succ _) rfl rfl ?_ (slots_and_nodup _)
      intro s hs
      obtain ⟨pos, -, rfl⟩ := List.mem_map.mp hs
      refine ⟨fun hspent => lt_irrefl _ hspent.1, Nat.lt_succ_self _, fun hk => ?_⟩
      have hnone : L.bits = 0 := by
        by_contra hb
        exact absurd (h.lastNumber_lt (Nat.pos_of_ne_zero hb)) (hk ▸ lt_irrefl _)
      exact hnone.le.trans (Nat.zero_le pos)

theorem Inv.congr {L L' : Ledger} (h : L.Inv) (hreceived : L'.received = L.received)
    (hlast : L'.lastNumber = L.lastNumber) (hbits : L'.bits = L.bits) (hqueued : L'.queued = L.queued)
    (hhanded : L'.handed = L.handed) : L'.Inv := by
  obtain ⟨received, lastNumber, bits, queued, suspended, handed⟩ := L'
  subst hreceived hlast hbits hqueued hhanded
  exact ⟨h.queued_le, h.lastNumber_lt, h.spent, h.nodup⟩

/-- **Every event keeps the ledger in order.** -/
theorem Inv.step {L : Ledger} (h : L.Inv) (e : Event) : (L.step e).Inv := by
  cases e with
  | start r =>
      by_cases hasks : L.Asks r
      · rw [step_asks hasks]
        exact h.congr rfl rfl rfl rfl rfl
      · rw [step_take hasks]
        cases r with
        | node => exact h.takeNode hasks
        | bit => exact h.takeBit hasks
        | _ => exact absurd trivial hasks
  | resume =>
      cases hsusp : L.suspended with
      | nil => rwa [step_idle hsusp]
      | cons r rest =>
          have hpop : Inv { L with suspended := rest } := h.congr rfl rfl rfl rfl rfl
          rw [step_resume hsusp]
          exact hpop.finish r

theorem Inv.run {L : Ledger} (h : L.Inv) (es : List Event) : (L.run es).Inv := by
  induction es generalizing L with
  | nil => exact h
  | cons e es ih => exact ih (h.step e)

/-- What has been handed out stays. -/
theorem handed_prefix_step (L : Ledger) (e : Event) : L.handed <+: (L.step e).handed := by
  cases e with
  | start r =>
      rw [step]
      split
      · exact List.prefix_rfl
      · cases r <;> exact List.prefix_append _ _
  | resume =>
      rw [step]
      split
      · exact List.prefix_rfl
      · rename_i r rest _
        cases r with
        | nodes => exact List.prefix_rfl
        | _ => exact List.prefix_append _ _

theorem handed_prefix_run (L : Ledger) (es : List Event) : L.handed <+: (L.run es).handed := by
  induction es generalizing L with
  | nil => exact List.prefix_rfl
  | cons e es ih => exact (L.handed_prefix_step e).trans (ih (L.step e))

end Ledger

/-! ## The parties realise the ledger -/

variable (R : Randomness)

/-- The half that a player is handed for a source. -/
def Source.realise (p : Player) : Source → Handed
  | .node k => .node k (R.nodeHalf p k)
  | .val k => .val k (R.valHalf p k)
  | .bit k pos => .bit k pos ⟨(R.andHalf p k).X.getLsbD pos, (R.andHalf p k).Y.getLsbD pos,
      (R.andHalf p k).Z.getLsbD pos⟩
  | .and k => .and k (R.andHalf p k)

/-- The state of a player at a ledger. -/
structure Peer.Realises (p : Player) (L : Ledger) (s : Peer) : Prop where
  received : s.received = L.received
  lastNumber : s.lastNumber = L.lastNumber
  bits : s.lastAndtripleBitsRemaining = L.bits
  last : 0 < L.bits → s.lastAndtriple = R.andHalf p L.lastNumber
  remaining : s.remainingNodesselecttriples = L.queued
  queue : s.queuedNodeselecttriples =
    (List.range' (L.received.nodes - L.queued) L.queued).map (R.nodeHalf p)
  suspended : s.suspended = L.suspended
  handed : s.handed = L.handed.map (Source.realise R p)

/-- The state of P2 at a ledger: it has also dealt for the requests in their `yield()`. -/
structure Server.Realises (L : Ledger) (s : Server) : Prop where
  deals : s.deals = L.suspended.foldl (fun c r => r.fetch c) L.received
  bits : s.lastAndtripleBitsRemaining = L.bits
  remaining : s.remainingNodesselecttriples = L.queued
  suspended : s.suspended = L.suspended

/-- The messages for a sequence of requests, after the deals `c`. -/
def stream (p : Player) (c : Deals) : List Request → List Item
  | [] => []
  | r :: rs => R.items p c r ++ stream p (r.fetch c) rs

section Peer

variable {R} {p : Player} {L : Ledger} {s : Peer}

/-- A request goes into its `yield()`. -/
theorem Peer.Realises.suspend (h : s.Realises R p L) (r : Request) :
    (s.suspend r).Realises R p { L with suspended := L.suspended ++ [r] } where
  received := h.received
  lastNumber := h.lastNumber
  bits := h.bits
  last := h.last
  remaining := h.remaining
  queue := h.queue
  suspended := congrArg (· ++ [r]) h.suspended
  handed := h.handed

theorem Peer.Realises.takeNode (h : s.Realises R p L) (hL : L.queued ≤ L.received.nodes)
    (hq : L.queued ≠ 0) : s.takeNode.Realises R p L.takeNode := by
  obtain ⟨queued, hqueued⟩ : ∃ n, L.queued = n + 1 := ⟨L.queued - 1, by omega⟩
  have hqueue : s.queuedNodeselecttriples = R.nodeHalf p (L.received.nodes - L.queued) ::
      (List.range' (L.received.nodes - L.queued + 1) queued).map (R.nodeHalf p) := by
    rw [h.queue, hqueued, List.range'_succ, List.map_cons]
  have hlength : s.queuedNodeselecttriples.length = L.queued := by
    rw [h.queue, List.length_map, List.length_range']
  have hnext : L.received.nodes - (L.queued - 1) = L.received.nodes - L.queued + 1 := by omega
  have hpred : L.queued - 1 = queued := by omega
  have htake : s.takeNode = { s with
      queuedNodeselecttriples :=
        (List.range' (L.received.nodes - L.queued + 1) queued).map (R.nodeHalf p)
      remainingNodesselecttriples := s.remainingNodesselecttriples - 1
      handed := s.handed ++ [.node (s.received.nodes - s.queuedNodeselecttriples.length)
        (R.nodeHalf p (L.received.nodes - L.queued))] } := by
    unfold Peer.takeNode
    rw [hqueue]
  rw [htake, hlength, h.received, h.remaining]
  refine ⟨rfl, h.lastNumber, h.bits, h.last, rfl, ?_, h.suspended, ?_⟩
  · show _ = (List.range' (L.received.nodes - (L.queued - 1)) (L.queued - 1)).map _
    rw [hnext, hpred]
  · show s.handed ++ _ = (L.handed ++ _).map _
    rw [h.handed, List.map_append]
    rfl

theorem Peer.Realises.takeBit (h : s.Realises R p L) (hb : L.bits ≠ 0) :
    s.takeBit.Realises R p L.takeBit := by
  have hlast := h.last (Nat.pos_of_ne_zero hb)
  refine ⟨h.received, h.lastNumber, ?_, fun _ => hlast, h.remaining, h.queue, h.suspended, ?_⟩
  · show s.lastAndtripleBitsRemaining - 1 = L.bits - 1
    rw [h.bits]
  · show s.handed ++ _ = (L.handed ++ _).map _
    rw [h.handed, List.map_append, hlast, h.bits, h.lastNumber]
    rfl

/-- A request up to its `yield()`. -/
theorem Peer.Realises.start (h : s.Realises R p L) (hL : L.Inv) (r : Request) :
    (s.start r).Realises R p (L.step (.start r)) := by
  by_cases hasks : L.Asks r
  · have hsuspend : s.start r = s.suspend r := by
      cases r with
      | node => exact if_pos (h.remaining.trans hasks)
      | bit => exact if_pos (h.bits.trans hasks)
      | _ => rfl
    rw [Ledger.step_asks hasks, hsuspend]
    exact h.suspend r
  · rw [Ledger.step_take hasks]
    cases r with
    | node =>
        have htake : s.start .node = s.takeNode := if_neg (h.remaining ▸ hasks)
        exact htake ▸ h.takeNode hL.queued_le hasks
    | bit =>
        have htake : s.start .bit = s.takeBit := if_neg (h.bits ▸ hasks)
        exact htake ▸ h.takeBit hasks
    | _ => exact absurd trivial hasks

theorem recvNodes_items (R : Randomness) (p : Player) (k num : Nat) (chan : List Item) :
    recvNodes num ((List.range' k num).flatMap (R.nodeItems p) ++ chan) =
      some ((List.range' k num).map (R.nodeHalf p), chan) := by
  induction num generalizing k with
  | zero => rfl
  | succ num ih =>
      rw [List.range'_succ, List.flatMap_cons, List.append_assoc, List.map_cons, recvNodes]
      show (recvNodes num ((List.range' (k + 1) num).flatMap (R.nodeItems p) ++ chan)).bind _ = _
      rw [ih]
      rfl

/-- The triples of a prefetch are put into the queue. -/
theorem Peer.Realises.storeNodes (h : s.Realises R p L) (hL : L.queued ≤ L.received.nodes)
    (num : Nat) : (s.storeNodes ((List.range' L.received.nodes num).map (R.nodeHalf p))).Realises R p
      (L.finish (.nodes num)) := by
  have hlength : ((List.range' L.received.nodes num).map (R.nodeHalf p)).length = num := by
    rw [List.length_map, List.length_range']
  unfold Peer.storeNodes
  rw [hlength, h.received, h.remaining]
  refine ⟨rfl, h.lastNumber, h.bits, h.last, rfl, ?_, h.suspended, h.handed⟩
  show s.queuedNodeselecttriples ++ _ =
    (List.range' (L.received.nodes + num - (L.queued + num)) (L.queued + num)).map _
  have hfirst : L.received.nodes + num - (L.queued + num) = L.received.nodes - L.queued := by omega
  have hsecond : L.received.nodes - L.queued + L.queued = L.received.nodes := by omega
  rw [h.queue, hfirst, ← List.range'_append_1, hsecond, List.map_append]

/-- A triple that is handed over as it is received. -/
theorem Peer.Realises.hand (h : s.Realises R p L) {received : Deals} (hnodes : received.nodes = L.received.nodes)
    (src : Source) : ({ s with received, handed := s.handed ++ [src.realise R p] } : Peer).Realises R p
      { L with received, handed := L.handed ++ [src] } := by
  refine ⟨rfl, h.lastNumber, h.bits, h.last, h.remaining, ?_, h.suspended, ?_⟩
  · rw [hnodes]
    exact h.queue
  · show s.handed ++ _ = (L.handed ++ _).map _
    rw [h.handed, List.map_append]
    rfl

/-- The rest of a request, with its messages at the front of the channel. -/
theorem Peer.Realises.finish (h : s.Realises R p L) (hL : L.Inv) (r : Request) (chan : List Item) :
    ∃ s', s.finish r (R.items p L.received r ++ chan) = some (s', chan) ∧
      s'.Realises R p (L.finish r) := by
  cases r with
  | nodes num =>
      have hrecv := recvNodes_items R p L.received.nodes num chan
      refine ⟨_, ?_, h.storeNodes hL.queued_le num⟩
      show (recvNodes num _).bind _ = _
      rw [Randomness.items, hrecv]
      rfl
  | node =>
      have hrecv := recvNodes_items R p L.received.nodes 1 chan
      rw [List.range'_one, List.flatMap_singleton] at hrecv
      have hstore := h.storeNodes hL.queued_le 1
      refine ⟨_, ?_, hstore.takeNode (hL.finish (.nodes 1)).queued_le (Nat.succ_ne_zero _)⟩
      rw [Peer.finish, Randomness.items, hrecv]
      rfl
  | val =>
      refine ⟨{ s with
        received := Request.val.fetch s.received
        handed := s.handed ++ [.val s.received.vals (R.valHalf p L.received.vals)] }, rfl, ?_⟩
      rw [h.received]
      exact h.hand (show (Request.val.fetch L.received).nodes = _ from rfl) (.val L.received.vals)
  | bit =>
      have hlast : Peer.Realises R p { L with
          received := Request.bit.fetch L.received
          lastNumber := L.received.ands
          bits := 64 } { s with
          received := Request.bit.fetch s.received
          lastAndtriple := R.andHalf p L.received.ands
          lastNumber := s.received.ands
          lastAndtripleBitsRemaining := 8 * 8 } := by
        rw [h.received]
        exact ⟨rfl, rfl, rfl, fun _ => rfl, h.remaining, h.queue, h.suspended, h.handed⟩
      exact ⟨_, rfl, hlast.takeBit (Nat.succ_ne_zero 63)⟩
  | and =>
      refine ⟨{ s with
        received := Request.and.fetch s.received
        handed := s.handed ++ [.and s.received.ands (R.andHalf p L.received.ands)] }, rfl, ?_⟩
      rw [h.received]
      exact h.hand (show (Request.and.fetch L.received).nodes = _ from rfl) (.and L.received.ands)

/-- What a player still has to read: for the requests in their `yield()` and those to come. -/
def ahead (R : Randomness) (p : Player) (L : Ledger) (es : List Event) : List Item :=
  stream R p L.received (L.suspended ++ L.asks es)

/-- **One event at a player** that reads its stream. -/
theorem Peer.Realises.step (h : s.Realises R p L) (hL : L.Inv) (e : Event) (es : List Event) :
    ∃ s', s.step e (ahead R p L (e :: es)) = some (s', ahead R p (L.step e) es) ∧
      s'.Realises R p (L.step e) := by
  cases e with
  | start r =>
      refine ⟨s.start r, ?_, h.start hL r⟩
      show some (s.start r, _) = _
      refine congrArg some (Prod.ext rfl ?_)
      show ahead R p L (.start r :: es) = ahead R p (L.step (.start r)) es
      unfold ahead
      rw [Ledger.asks]
      by_cases hasks : L.Asks r
      · rw [Ledger.asked, if_pos hasks, Ledger.step_asks hasks, List.append_assoc]
      · rw [Ledger.asked, if_neg hasks, Ledger.step_take hasks]
        cases r <;> rfl
  | resume =>
      cases hsusp : L.suspended with
      | nil =>
          have hpeer : s.suspended = [] := h.suspended.trans hsusp
          refine ⟨s, ?_, (Ledger.step_idle hsusp).symm ▸ h⟩
          rw [Peer.step, hpeer]
          unfold ahead
          rw [Ledger.asks, Ledger.step_idle hsusp]
          rfl
      | cons r rest =>
          have hpeer : s.suspended = r :: rest := h.suspended.trans hsusp
          have hpop : Peer.Realises R p { L with suspended := rest } { s with suspended := rest } :=
            ⟨h.received, h.lastNumber, h.bits, h.last, h.remaining, h.queue, rfl, h.handed⟩
          have hpopL : Ledger.Inv { L with suspended := rest } := hL.congr rfl rfl rfl rfl rfl
          obtain ⟨s', hfinish, hs'⟩ := hpop.finish hpopL r
            (stream R p (r.fetch L.received) (rest ++ (L.step .resume).asks es))
          have hnext := Ledger.step_resume hsusp
          refine ⟨s', ?_, hnext.symm ▸ hs'⟩
          rw [Peer.step, hpeer]
          have hahead : ahead R p L (.resume :: es) = R.items p L.received r ++
              stream R p (r.fetch L.received) (rest ++ (L.step .resume).asks es) := by
            unfold ahead
            rw [hsusp]
            rfl
          rw [hahead]
          refine hfinish.trans (congrArg some (Prod.ext rfl ?_))
          unfold ahead
          rw [hnext]
          cases r <;> rfl

end Peer

/-- **One event at P2**: what is still to be dealt loses what is queued. -/
theorem Server.Realises.step {L : Ledger} {s : Server} (h : s.Realises L) (e : Event)
    (es : List Event) : (s.step R e).2.Realises (L.step e) ∧
      ∀ p, stream R p s.deals (L.asks (e :: es)) =
        (s.step R e).1 p ++ stream R p (s.step R e).2.deals ((L.step e).asks es) := by
  cases e with
  | start r =>
      rw [Ledger.asks, Ledger.asked]
      by_cases hasks : L.Asks r
      · have hdeal : s.step R (.start r) = s.deal R r := by
          cases r with
          | node => exact if_pos (h.remaining.trans hasks)
          | bit => exact if_pos (h.bits.trans hasks)
          | _ => rfl
        rw [hdeal, Ledger.step_asks hasks, if_pos hasks]
        refine ⟨⟨?_, h.bits, h.remaining, congrArg (· ++ [r]) h.suspended⟩, fun p => rfl⟩
        show r.fetch s.deals = _
        rw [h.deals, List.foldl_concat]
      · rw [Ledger.step_take hasks, if_neg hasks]
        cases r with
        | node =>
            have htake : s.step R (.start .node) = (fun _ => [],
                { s with remainingNodesselecttriples := s.remainingNodesselecttriples - 1 }) :=
              if_neg (h.remaining ▸ hasks)
            rw [htake]
            exact ⟨⟨h.deals, h.bits, congrArg (· - 1) h.remaining, h.suspended⟩, fun p => rfl⟩
        | bit =>
            have htake : s.step R (.start .bit) = (fun _ => [],
                { s with lastAndtripleBitsRemaining := s.lastAndtripleBitsRemaining - 1 }) :=
              if_neg (h.bits ▸ hasks)
            rw [htake]
            exact ⟨⟨h.deals, congrArg (· - 1) h.bits, h.remaining, h.suspended⟩, fun p => rfl⟩
        | _ => exact absurd trivial hasks
  | resume =>
      cases hsusp : L.suspended with
      | nil =>
          have hserver : s.step R .resume = (fun _ => [], s) := by
            rw [Server.step, h.suspended, hsusp]
          rw [hserver, Ledger.asks, Ledger.step_idle hsusp]
          exact ⟨h, fun p => rfl⟩
      | cons r rest =>
          have hserver : s.step R .resume =
              (fun _ => [], { s with suspended := rest }.finish r) := by
            rw [Server.step, h.suspended, hsusp]
          have hdeals := h.deals
          rw [hsusp, List.foldl_cons] at hdeals
          rw [hserver, Ledger.asks, Ledger.step_resume hsusp]
          cases r with
          | nodes num =>
              exact ⟨⟨hdeals, h.bits, congrArg (· + num) h.remaining, rfl⟩, fun p => rfl⟩
          | node =>
              exact ⟨⟨hdeals, h.bits, congrArg (· + 1 - 1) h.remaining, rfl⟩, fun p => rfl⟩
          | bit => exact ⟨⟨hdeals, rfl, h.remaining, rfl⟩, fun p => rfl⟩
          | _ => exact ⟨⟨hdeals, h.bits, h.remaining, rfl⟩, fun p => rfl⟩

/-! ## More messages do not matter -/

section Frame

variable {chan chan' : List Item} (more : List Item)

theorem recvNode_append {t : SelectTriple DPFnode} (h : recvNode chan = some (t, chan')) :
    recvNode (chan ++ more) = some (t, chan' ++ more) := by
  unfold recvNode at h
  split at h
  · cases h
    rfl
  · cases h

theorem recvNodes_append {num : Nat} {ts : List (SelectTriple DPFnode)}
    (h : recvNodes num chan = some (ts, chan')) :
    recvNodes num (chan ++ more) = some (ts, chan' ++ more) := by
  induction num generalizing chan ts with
  | zero =>
      cases h
      rfl
  | succ num ih =>
      rw [recvNodes, Option.bind_eq_bind, Option.bind_eq_some_iff] at h
      obtain ⟨⟨t, c⟩, ht, h⟩ := h
      rw [Option.bind_eq_bind, Option.bind_eq_some_iff] at h
      obtain ⟨⟨us, d⟩, hus, h⟩ := h
      cases h
      rw [recvNodes, recvNode_append more ht]
      show (recvNodes num (c ++ more)).bind _ = _
      rw [ih hus]
      rfl

theorem recvVal_append {t : SelectTriple Value} (h : recvVal chan = some (t, chan')) :
    recvVal (chan ++ more) = some (t, chan' ++ more) := by
  unfold recvVal at h
  split at h
  · cases h
    rfl
  · cases h

theorem recvAnd_append {t : AndTriple} (h : recvAnd chan = some (t, chan')) :
    recvAnd (chan ++ more) = some (t, chan' ++ more) := by
  unfold recvAnd at h
  split at h
  · cases h
    rfl
  · cases h

theorem Peer.finish_append {s s' : Peer} {r : Request}
    (h : s.finish r chan = some (s', chan')) :
    s.finish r (chan ++ more) = some (s', chan' ++ more) := by
  cases r with
  | nodes num =>
      obtain ⟨⟨ts, c⟩, hts, h⟩ := Option.bind_eq_some_iff.mp h
      cases h
      rw [finish, recvNodes_append more hts]
      rfl
  | node =>
      obtain ⟨⟨ts, c⟩, hts, h⟩ := Option.bind_eq_some_iff.mp h
      cases h
      rw [finish, recvNodes_append more hts]
      rfl
  | val =>
      obtain ⟨⟨t, c⟩, ht, h⟩ := Option.bind_eq_some_iff.mp h
      cases h
      rw [finish, recvVal_append more ht]
      rfl
  | bit =>
      obtain ⟨⟨t, c⟩, ht, h⟩ := Option.bind_eq_some_iff.mp h
      cases h
      rw [finish, recvAnd_append more ht]
      rfl
  | and =>
      obtain ⟨⟨t, c⟩, ht, h⟩ := Option.bind_eq_some_iff.mp h
      cases h
      rw [finish, recvAnd_append more ht]
      rfl

theorem Peer.step_append {s s' : Peer} {e : Event} (h : s.step e chan = some (s', chan')) :
    s.step e (chan ++ more) = some (s', chan' ++ more) := by
  cases e with
  | start r =>
      cases h
      rfl
  | resume =>
      unfold Peer.step at h ⊢
      cases hsusp : s.suspended with
      | nil =>
          simp only [hsusp] at h ⊢
          cases h
          rfl
      | cons r rest =>
          simp only [hsusp] at h ⊢
          exact finish_append more h

end Frame

/-! ## The parties together -/

/-- The halves of one triple, or of one bit of an AND triple, in the select relation. -/
def Halves : Handed → Handed → Prop
  | .node k t, .node k' t' => k = k' ∧
    (if128Mask t.X &&& t'.Y) ^^^ (if128Mask t'.X &&& t.Y) = t.Z ^^^ t'.Z
  | .val k t, .val k' t' => k = k' ∧
    (valueMask t.X &&& t'.Y) ^^^ (valueMask t'.X &&& t.Y) = t.Z ^^^ t'.Z
  | .bit k pos t, .bit k' pos' t' => k = k' ∧ pos = pos' ∧
    ((t.X && t'.Y) ^^ (t'.X && t.Y)) = (t.Z ^^ t'.Z)
  | .and k t, .and k' t' => k = k' ∧ (t.X &&& t'.Y) ^^^ (t'.X &&& t.Y) = t.Z ^^^ t'.Z
  | _, _ => False

/-- What a player was handed uses up. -/
def Handed.slots : Handed → List Slot
  | .node k _ => [.node k]
  | .val k _ => [.val k]
  | .bit k pos _ => [.andBit k pos]
  | .and k _ => (List.range 64).map (.andBit k)

theorem Source.realise_slots (p : Player) (x : Source) : (x.realise R p).slots = x.slots := by
  cases x <;> rfl

theorem xor_xor_self_right {w : Nat} (a b : BitVec w) : b ^^^ (a ^^^ b) = a := by
  rw [BitVec.xor_comm a b, ← BitVec.xor_assoc, BitVec.xor_self, BitVec.zero_xor]

theorem SelectDraw.half_valid {w : Nat} (ext : Bool → BitVec w) (d : SelectDraw (BitVec w)) :
    (ext (d.half ext .p0).X &&& (d.half ext .p1).Y) ^^^
      (ext (d.half ext .p1).X &&& (d.half ext .p0).Y) = (d.half ext .p0).Z ^^^ (d.half ext .p1).Z :=
  (xor_xor_self_right _ d.Z0).symm

theorem AndDraw.half_valid (d : AndDraw) :
    ((d.half .p0).X &&& (d.half .p1).Y) ^^^ ((d.half .p1).X &&& (d.half .p0).Y) =
      (d.half .p0).Z ^^^ (d.half .p1).Z :=
  (xor_xor_self_right _ d.Z0).symm

/-- The two halves of a source match. -/
theorem Source.realise_halves (x : Source) : Halves (x.realise R .p0) (x.realise R .p1) := by
  cases x with
  | node k => exact ⟨rfl, (R.node k).half_valid if128Mask⟩
  | val k => exact ⟨rfl, (R.val k).half_valid valueMask⟩
  | bit k pos =>
      refine ⟨rfl, rfl, ?_⟩
      have hword := congrArg (fun w : Value => w.getLsbD pos) (R.and k).half_valid
      simp only [BitVec.getLsbD_xor, BitVec.getLsbD_and] at hword
      exact hword
  | and k => exact ⟨rfl, (R.and k).half_valid⟩

/-- Each party is at its place in the sequence of events, and what is in flight to a player is what P2 has
dealt and the player has not read. -/
structure World.Inv (events : List Event) (w : World) : Prop where
  server : ∃ done, events = done ++ w.serverTodo ∧ w.server.Realises (Ledger.init.run done) ∧
    ∀ p, ∃ done', events = done' ++ w.todo p ∧ (w.peer p).Realises R p (Ledger.init.run done') ∧
      w.chan p ++ stream R p w.server.deals ((Ledger.init.run done).asks w.serverTodo) =
        ahead R p (Ledger.init.run done') (w.todo p)

theorem World.Inv.init (events : List Event) : World.Inv R events (World.init events) :=
  ⟨[], rfl, ⟨rfl, rfl, rfl, rfl⟩, fun _ => ⟨[], rfl,
    ⟨rfl, rfl, rfl, fun h => absurd h (lt_irrefl 0), rfl, rfl, rfl, rfl⟩, rfl⟩⟩

theorem World.Inv.step {events : List Event} {w w' : World} (h : World.Inv R events w)
    (hstep : World.Step R w w') : World.Inv R events w' := by
  obtain ⟨done, hdone, hserver, hpeers⟩ := h.server
  cases hstep with
  | @server e rest htodo =>
      obtain ⟨hserver', hstream⟩ := hserver.step R e rest
      refine ⟨done ++ [e], ?_, ?_, fun p => ?_⟩
      · rw [hdone, htodo, List.append_assoc]
        rfl
      · rw [Ledger.run_concat]
        exact hserver'
      · obtain ⟨done', hdone', hpeer, hchan⟩ := hpeers p
        refine ⟨done', hdone', hpeer, ?_⟩
        rw [htodo, hstream p] at hchan
        rw [Ledger.run_concat, List.append_assoc]
        exact hchan
  | @peer q e rest s chan htodo hs =>
      refine ⟨done, hdone, hserver, fun p => ?_⟩
      obtain ⟨done', hdone', hpeer, hchan⟩ := hpeers p
      rcases eq_or_ne p q with rfl | hne
      · -- the step on what is in flight is the step on the whole stream
        have hL := Ledger.Inv.init.run done'
        obtain ⟨s', hs', hpeer'⟩ := hpeer.step hL e rest
        have hframe := Peer.step_append
          (stream R p w.server.deals ((Ledger.init.run done).asks w.serverTodo)) hs
        rw [hchan, htodo, hs', Option.some.injEq, Prod.mk.injEq] at hframe
        obtain ⟨rfl, hrest⟩ := hframe
        refine ⟨done' ++ [e], ?_, ?_, ?_⟩
        · show events = _ ++ Function.update w.todo p rest p
          rw [Function.update_self, hdone', htodo, List.append_assoc]
          rfl
        · show (Function.update w.peer p s' p).Realises R p _
          rw [Function.update_self, Ledger.run_concat]
          exact hpeer'
        · show Function.update w.chan p chan p ++ _ = ahead R p _ (Function.update w.todo p rest p)
          rw [Function.update_self, Function.update_self, Ledger.run_concat]
          exact hrest.symm
      · refine ⟨done', ?_, ?_, ?_⟩
        · show events = _ ++ Function.update w.todo q rest p
          rwa [Function.update_of_ne hne]
        · show (Function.update w.peer q s p).Realises R p _
          rwa [Function.update_of_ne hne]
        · show Function.update w.chan q chan p ++ _ = ahead R p _ (Function.update w.todo q rest p)
          rwa [Function.update_of_ne hne, Function.update_of_ne hne]

theorem World.Reachable.inv {events : List Event} {w : World} (h : World.Reachable R events w) :
    World.Inv R events w := by
  induction h with
  | init => exact World.Inv.init R events
  | step _ hstep ih => exact ih.step R hstep

/-! ### What the invariant says -/

section

variable {R} {events : List Event} {w : World}

/-- The ledgers of two parties in one sequence of events: one is a run of the other. -/
theorem run_handed_prefix {done todo done' todo' : List Event} (h : done ++ todo = done' ++ todo') :
    (Ledger.init.run done).handed <+: (Ledger.init.run done').handed ∨
      (Ledger.init.run done').handed <+: (Ledger.init.run done).handed := by
  rcases List.append_eq_append_iff.mp h with ⟨es, rfl, -⟩ | ⟨es, rfl, -⟩
  · exact Or.inl (Ledger.run_append _ done es ▸ Ledger.handed_prefix_run _ es)
  · exact Or.inr (Ledger.run_append _ done' es ▸ Ledger.handed_prefix_run _ es)

theorem getElem?_mono {α : Type} {xs ys : List α} (h : xs <+: ys) {i : Nat} {x : α}
    (hx : xs[i]? = some x) : ys[i]? = some x := by
  obtain ⟨more, rfl⟩ := h
  rw [List.getElem?_append_left (List.getElem?_eq_some_iff.mp hx).1, hx]

/-- The `i`-th things handed to the two players are the halves of one triple. -/
theorem World.Inv.matched (h : World.Inv R events w) {i : Nat} {h0 h1 : Handed}
    (hp0 : (w.peer .p0).handed[i]? = some h0) (hp1 : (w.peer .p1).handed[i]? = some h1) :
    Halves h0 h1 := by
  obtain ⟨_, -, -, hpeers⟩ := h.server
  obtain ⟨done0, hdone0, hpeer0, -⟩ := hpeers .p0
  obtain ⟨done1, hdone1, hpeer1, -⟩ := hpeers .p1
  rw [hpeer0.handed, List.getElem?_map, Option.map_eq_some_iff] at hp0
  rw [hpeer1.handed, List.getElem?_map, Option.map_eq_some_iff] at hp1
  obtain ⟨x, hx, rfl⟩ := hp0
  obtain ⟨y, hy, rfl⟩ := hp1
  have hxy : x = y := by
    rcases run_handed_prefix (hdone0.symm.trans hdone1) with hprefix | hprefix
    · exact Option.some.inj ((getElem?_mono hprefix hx).symm.trans hy)
    · exact Option.some.inj (hx.symm.trans (getElem?_mono hprefix hy))
  exact hxy ▸ x.realise_halves R

theorem World.Inv.nodup (h : World.Inv R events w) (p : Player) :
    ((w.peer p).handed.flatMap Handed.slots).Nodup := by
  obtain ⟨_, -, -, hpeers⟩ := h.server
  obtain ⟨done, -, hpeer, -⟩ := hpeers p
  rw [hpeer.handed, List.flatMap_map]
  simp only [Source.realise_slots]
  exact (Ledger.Inv.init.run done).nodup

theorem World.Inv.remaining (h : World.Inv R events w) (p : Player) :
    (w.peer p).remainingNodesselecttriples = (w.peer p).queuedNodeselecttriples.length := by
  obtain ⟨_, -, -, hpeers⟩ := h.server
  obtain ⟨_, -, hpeer, -⟩ := hpeers p
  rw [hpeer.remaining, hpeer.queue, List.length_map, List.length_range']

theorem World.Inv.serverRemaining (h : World.Inv R events w) {p : Player}
    (hsame : w.serverTodo = w.todo p) :
    w.server.remainingNodesselecttriples = (w.peer p).queuedNodeselecttriples.length := by
  obtain ⟨done, hdone, hserver, hpeers⟩ := h.server
  obtain ⟨done', hdone', hpeer, -⟩ := hpeers p
  have heq : done = done' := by
    rw [hdone, hsame] at hdone'
    exact List.append_cancel_right hdone'
  rw [hserver.remaining, heq, ← hpeer.remaining, h.remaining p]

/-- Once P2 has dealt everything no player finds messages missing or of the wrong kind. -/
theorem World.Inv.progress (h : World.Inv R events w) (hdealt : w.serverTodo = []) {p : Player}
    {e : Event} {rest : List Event} (htodo : w.todo p = e :: rest) :
    ∃ out, (w.peer p).step e (w.chan p) = some out := by
  obtain ⟨_, -, -, hpeers⟩ := h.server
  obtain ⟨done, -, hpeer, hchan⟩ := hpeers p
  obtain ⟨s, hs, -⟩ := hpeer.step (Ledger.Inv.init.run done) e rest
  rw [hdealt, htodo] at hchan
  have hall : w.chan p = ahead R p (Ledger.init.run done) (e :: rest) := by
    rw [← hchan]
    exact (List.append_nil _).symm
  exact ⟨_, hall ▸ hs⟩

end

/-- **Correlated randomness stays matched**, in every reachable state: the `i`-th things handed to P0 and P1
are halves of one triple in the select relation; no bit position of an AND triple, value triple or node
triple is handed out twice; the count of prefetched triples is their number, at P2 too when it is at the
same place; and once P2 has dealt, every player finds the messages that it reads. -/
theorem triples_matched {events : List Event} {w : World} (h : World.Reachable R events w) :
    (∀ (i : Nat) (h0 h1 : Handed), (w.peer .p0).handed[i]? = some h0 → (w.peer .p1).handed[i]? = some h1 →
      Halves h0 h1) ∧
    (∀ p, ((w.peer p).handed.flatMap Handed.slots).Nodup) ∧
    (∀ p, (w.peer p).remainingNodesselecttriples = (w.peer p).queuedNodeselecttriples.length) ∧
    (∀ p, w.serverTodo = w.todo p →
      w.server.remainingNodesselecttriples = (w.peer p).queuedNodeselecttriples.length) ∧
    (w.serverTodo = [] → ∀ p e rest, w.todo p = e :: rest →
      ∃ out, (w.peer p).step e (w.chan p) = some out) := by
  have hinv := h.inv R
  exact ⟨fun _ _ _ hp0 hp1 => hinv.matched hp0 hp1, hinv.nodup, hinv.remaining,
    fun _ => hinv.serverRemaining, fun hdealt _ _ _ htodo => hinv.progress hdealt htodo⟩

/-! ## A schedule -/

/-- The next event of one party: of a player, or of P2. -/
def World.advance (R : Randomness) (w : World) : Option Player → Option World
  | none =>
    match w.serverTodo with
    | [] => none
    | e :: rest => some { w with
        server := (w.server.step R e).2
        serverTodo := rest
        chan := fun p => w.chan p ++ (w.server.step R e).1 p }
  | some p =>
    match w.todo p with
    | [] => none
    | e :: rest =>
      ((w.peer p).step e (w.chan p)).map fun (s, chan) => { w with
        peer := Function.update w.peer p s
        todo := Function.update w.todo p rest
        chan := Function.update w.chan p chan }

theorem World.advance_step {R : Randomness} {w w' : World} {party : Option Player}
    (h : w.advance R party = some w') : World.Step R w w' := by
  unfold advance at h
  cases party with
  | none =>
      cases htodo : w.serverTodo with
      | nil => simp [htodo] at h
      | cons e rest =>
          simp only [htodo, Option.some.injEq] at h
          exact h ▸ .server htodo
  | some p =>
      cases htodo : w.todo p with
      | nil => simp [htodo] at h
      | cons e rest =>
          simp only [htodo, Option.map_eq_some_iff] at h
          obtain ⟨⟨s, chan⟩, hs, rfl⟩ := h
          exact .peer p htodo hs

/-- What a schedule reaches is reachable. -/
theorem World.Reachable.foldlM {R : Randomness} {events : List Event} {w w' : World}
    (h : World.Reachable R events w) {schedule : List (Option Player)}
    (hrun : schedule.foldlM (World.advance R) w = some w') : World.Reachable R events w' := by
  induction schedule generalizing w with
  | nil => exact Option.some.inj hrun ▸ h
  | cons party schedule ih =>
      obtain ⟨w1, hstep, hrest⟩ := Option.bind_eq_some_iff.mp hrun
      exact ih (h.step (World.advance_step hstep)) hrest

/-- Some draws of P2. -/
def fewDraws : Randomness :=
  ⟨fun k => ⟨0xc000000000000005, 6, BitVec.ofNat 64 k, 0xa000000000000001, 0x6000000000000003⟩,
    fun k => ⟨true, 7, BitVec.ofNat 64 (10 + k), false, 9⟩,
    fun k => ⟨k % 2 = 0, 11, BitVec.ofNat 128 (20 + k), true, 12⟩⟩

/-- A prefetch of two node triples, of which one is taken; a value triple, two bits and an AND triple. -/
def fewRequests : List Event :=
  [.start (.nodes 2), .resume, .start .node, .start .val, .resume, .start .bit, .resume, .start .bit,
    .start .and, .resume]

/-- P2 deals, then P0 and then P1 make all events but the last. -/
def fewTurns : List (Option Player) :=
  List.replicate 10 none ++ (List.replicate 9 (some .p0) ++ List.replicate 9 (some .p1))

/-- What the players have been handed then are halves of the same triples. -/
theorem triples_matched_prefetch : ∃ w, World.Reachable fewDraws fewRequests w ∧
    (w.peer .p0).handed = [.node 0 ⟨true, 11, 20⟩, .val 0 ⟨true, 7, 10⟩, .bit 0 63 ⟨true, false, false⟩,
      .bit 0 62 ⟨true, false, false⟩] ∧
    (w.peer .p1).handed = [.node 0 ⟨true, 12, 19⟩, .val 0 ⟨false, 9, 3⟩, .bit 0 63 ⟨true, false, false⟩,
      .bit 0 62 ⟨false, true, true⟩] ∧
    List.Forall₂ Halves (w.peer .p0).handed (w.peer .p1).handed ∧
    (∀ p, ((w.peer p).handed.flatMap Handed.slots).Nodup) ∧
    (∀ p, (w.peer p).remainingNodesselecttriples = (w.peer p).queuedNodeselecttriples.length) ∧
    ∃ out, (w.peer .p1).step .resume (w.chan .p1) = some out := by
  have hrun : ((fewTurns.foldlM (World.advance fewDraws) (World.init fewRequests)).map fun w =>
      (w.serverTodo, w.todo .p1, (w.peer .p0).handed, (w.peer .p1).handed)) = some ([], [.resume],
        [.node 0 ⟨true, 11, 20⟩, .val 0 ⟨true, 7, 10⟩, .bit 0 63 ⟨true, false, false⟩,
          .bit 0 62 ⟨true, false, false⟩],
        [.node 0 ⟨true, 12, 19⟩, .val 0 ⟨false, 9, 3⟩, .bit 0 63 ⟨true, false, false⟩,
          .bit 0 62 ⟨false, true, true⟩]) := by
    decide +kernel
  obtain ⟨w, hw, hout⟩ := Option.map_eq_some_iff.mp hrun
  obtain ⟨hserver, htodo, hp0, hp1⟩ := by simpa only [Prod.mk.injEq] using hout
  have hreach := World.Reachable.init.foldlM hw
  obtain ⟨hmatch, hnodup, hremaining, -, hprogress⟩ := triples_matched fewDraws hreach
  refine ⟨w, hreach, hp0, hp1, ?_, hnodup, hremaining, hprogress hserver .p1 .resume [] htodo⟩
  refine List.forall₂_iff_get.mpr ⟨by rw [hp0, hp1]; rfl, fun i hi0 hi1 => ?_⟩
  exact hmatch i _ _ (List.getElem?_eq_getElem hi0) (List.getElem?_eq_getElem hi1)

end Prac.Triples
