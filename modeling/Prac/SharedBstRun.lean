import Prac.SharedBst
import Prac.SharedHeap
import Prac.TreeDictionary

/-!
# The search tree of the three parties is a dictionary

* `Shared.TreeCall`, `Shared.BST.step` — the operations, with what the parties draw for each.
* `Shared.BST.simulates` — every operation that the tree in the clear can do is done by the three parties on
  shares.
* `Shared.tree_correct` — whole runs from a new tree, against the dictionary.
-/

namespace Prac

open Simulation

namespace Shared

variable {oramSize : Nat}

/-- Shares of a node without children. -/
def newNode (key : Player → RegAS) (value : Player → RegXS) : ∀ f : NodeField, Player → f.Reg :=
  nodeShares key (fun _ => ⟨0⟩) value

/-- One operation on the tree, with what the parties draw for it. -/
inductive TreeCall where
  | insert (key : Player → RegAS) (value : Player → RegXS) (coins : BST.InsertCoins)
  | lookup (key : Player → RegAS) (otherwise : (Player → RegAS) × (Player → RegXS)) (coins : Nat → BST.LookupLevel)
  | delete (key : Player → RegAS) (coins : BST.DelCoins)

/-- The operation in the clear. -/
def TreeCall.op : TreeCall → TreeOp
  | insert key value _ => .insert (reveal key) (reveal value)
  | lookup key otherwise _ => .lookup (reveal key) (reveal otherwise.1, reveal otherwise.2)
  | delete key _ => .delete (reveal key)

/-- What an operation returns; a deletion opens its success. -/
inductive TreeOut where
  | inserted
  | lookedUp (found : Player → RegBS) (key : Player → RegAS) (value : Player → RegXS)
  | deleted (success : Bool)

/-- The reply behind it. -/
def TreeOut.opened : TreeOut → TreeReply
  | inserted => .inserted
  | lookedUp found key value => .lookedUp (reveal found) (reveal key, reveal value)
  | deleted success => .deleted success

namespace BST

/-- One operation. -/
def step (tio : MPCTIO 1) (b : BST oramSize) : TreeCall → Option (BST oramSize × TreeOut)
  | .insert key value coins => (insert tio b (newNode key value) coins).map fun b => (b, .inserted)
  | .lookup key otherwise coins =>
    (lookup tio b key (newNode otherwise.1 otherwise.2) coins).map fun ((found, ret_node), b) =>
      (b, .lookedUp found (ret_node .key) (ret_node .value))
  | .delete key coins => (del tio b key coins).map fun (success, b) => (b, .deleted success)

theorem revealNode_newNode (key : Player → RegAS) (value : Player → RegXS) :
    revealNode (newNode key value) = Prac.BST.newNode (reveal key) (reveal value) :=
  Node.ext rfl reveal_zeroShare rfl

theorem flat_padFree : (via oramSize).shape.PadFree := trivial

/-- The three parties do what the tree in the clear does. -/
theorem simulates (tio : MPCTIO 1) (hA : (via oramSize).shape.Oblivious) :
    Simulates Represents TreeCall.op TreeOut.opened (ofStep fun (b : BST oramSize) => step tio b)
      (ofStep Prac.BST.call) := by
  rintro b ideal call ideal' reply hrep hstep
  cases call with
  | insert key value coins =>
      obtain ⟨ideal1, hins, heq⟩ := Option.map_eq_some_iff.mp hstep
      cases heq
      rw [← revealNode_newNode] at hins
      obtain ⟨b', hshares, hrep'⟩ := insert_represents hA tio flat_padFree hrep (newNode key value) coins hins
      exact ⟨b', .inserted, by rw [ofStep, step, hshares, Option.map_some], hrep', rfl⟩
  | lookup key otherwise coins =>
      cases hstep
      obtain ⟨found, res, hshares, hval⟩ :=
        lookup_represents hA tio hrep key (newNode otherwise.1 otherwise.2) coins
      rw [revealNode_newNode] at hval
      have hreply := congrArg (fun r : Bool × Node => Dictionary.Reply.lookedUp r.1 (r.2.key, r.2.value)) hval
      refine ⟨b, .lookedUp found (res .key) (res .value), ?_, hrep, hreply⟩
      rw [ofStep, step, hshares, Option.map_some]
  | delete key coins =>
      cases hstep
      obtain ⟨b', hshares, hrep'⟩ := del_represents hA tio flat_padFree hrep key coins
      exact ⟨b', .deleted _, by rw [ofStep, step, hshares, Option.map_some], hrep', rfl⟩

/-- A new tree stands for one in the clear. -/
theorem init_represents : (init : BST oramSize).Represents Prac.BST.init where
  oram := ⟨fun f => by cases f <;> exact WideState.Holds.create.fields _, rfl⟩
  root := reveal_zeroShare
  numItems := rfl
  emptyLocations := rfl

end BST

/-- **The search tree on shares.**  Any sequence of insertions, lookups and deletions from a new tree that it
supports succeeds, however the keys and the values are shared and whatever the parties draw.  What it returns
stands for the replies of the dictionary in the clear, and the shares in the end for a tree with its keys and
their values. -/
theorem tree_correct (htwo : 2 ≤ oramSize) (hle : oramSize ≤ 2 ^ RDPF.maxKeyDepth) (tio : MPCTIO 1)
    (calls : List TreeCall)
    (hsupp : Throughout (Prac.BST.Supported oramSize) TreeStore.step .empty (calls.map TreeCall.op)) :
    ∃ (b : Shared.BST oramSize) (outs : List TreeOut), run (BST.step tio) BST.init calls = some (b, outs) ∧
      outs.map TreeOut.opened = (exec TreeStore.step .empty (calls.map TreeCall.op)).2 ∧
      ∃ ideal t, b.Represents ideal ∧ ideal.Holds t ∧
        Prac.BST.pairs ideal.oram t = (exec TreeStore.step .empty (calls.map TreeCall.op)).1.entries.pairs := by
  have hA : (BST.via oramSize).shape.Oblivious := MinHeap.flat_oblivious htwo hle
  have hsim := (BST.simulates tio hA).trans Prac.BST.simulates_dictionary
  obtain ⟨b, outs, hrun, ⟨ideal, hrep, hstands⟩, houts⟩ :=
    hsim.run ⟨_, BST.init_represents, Prac.BST.StandsFor.init⟩ hsupp.run
  obtain ⟨t, hsound, hpairs⟩ := hstands.tree
  exact ⟨b, outs, run_iff.mpr hrun, houts, ideal, t, hrep, hsound.holds, hpairs⟩

/-- The calls of `BST.fewCalls` on shares: P1 draws its share of a word, and P0 has the rest. -/
def fewCalls : List TreeCall :=
  let keys : TripleCoins 1 := ⟨fun _ => 5, fun _ _ => 3, default, fun _ => halftriple (fun _ => 7) 9⟩
  let wide : WideCoins NodeField.Reg := ⟨keys, fun _ _ => NodeField.node ⟨1⟩ ⟨6⟩ ⟨4⟩, NodeField.node ⟨2⟩ ⟨3⟩ ⟨8⟩⟩
  let cdpf : CdpfCoins := ⟨fun _ => 1, 2, 3, 4⟩
  let bit : BitSelectTriple := ⟨fun _ => true, fun p => p.bit, fun p => !p.bit, rfl⟩
  let word : BST.SelectCoins := ⟨valselecttriple (fun _ => true) (fun _ => 4) 5, fun _ => 6⟩
  let mult : MultTriple := multtriple (fun _ => 7) (fun _ => 8) 9
  let insert : BST.InsertCoins := ⟨fun _ _ => 0, wide, wide.field,
    fun _ => ⟨wide, cdpf, word, cdpf, bit, word, bit⟩, wide, word, word, wide⟩
  let lookup (_ : Nat) : BST.LookupLevel := ⟨wide, cdpf, word, bit, mult, word, bit⟩
  let delete : BST.DelCoins := ⟨wide, wide.field, fun _ => ⟨wide, cdpf, fun _ => bit, fun _ => word, wide⟩, wide,
    wide, word, mult, word, word, fun _ => wide⟩
  let key (v : Value) (p : Player) : RegAS := if p.bit then ⟨3⟩ else ⟨v - 3⟩
  let value (v : Value) (p : Player) : RegXS := if p.bit then ⟨6⟩ else ⟨v ^^^ 6⟩
  [.insert (key 20) (value 1) insert, .insert (key 10) (value 2) insert, .lookup (key 10) (key 0, value 0) lookup,
    .lookup (key 15) (key 0, value 7) lookup, .delete (key 15) delete, .delete (key 10) delete,
    .lookup (key 10) (key 0, value 0) lookup]

theorem fewCalls_op : fewCalls.map TreeCall.op = Prac.BST.fewCalls := rfl

/-- In a memory of eight nodes the three parties reply to them like a dictionary. -/
theorem tree_correct_eight :
    let tio : MPCTIO 1 := ⟨⟨fun _ _ => 0, fun _ _ => 0⟩, fun _ => 1, 1⟩
    ∃ (b : Shared.BST 8) (outs : List TreeOut), run (BST.step tio) BST.init fewCalls = some (b, outs) ∧
      outs.map TreeOut.opened = [.inserted, .inserted, .lookedUp true (10, 2), .lookedUp false (0, 7),
        .deleted false, .deleted true, .lookedUp false (0, 0)] ∧
      ∃ ideal t, b.Represents ideal ∧ ideal.Holds t ∧ Prac.BST.pairs ideal.oram t = {(20, 1)} := by
  intro tio
  have h := tree_correct (show 2 ≤ 8 by decide) (show 8 ≤ 2 ^ RDPF.maxKeyDepth by decide) tio fewCalls
    (fewCalls_op ▸ Prac.BST.fewCalls_supported)
  rw [fewCalls_op] at h
  exact h

end Shared

end Prac
