import Prac.Slots

/-!
# The found flag at the dummy node

* `ReportsStored` — a search reports found iff a node in use has the key.
* `SparesDummy` — the descent for the key 0 ends before it comes to the dummy node 0, or 0 is stored.
* `found_flag_iff` — of the four searches the first holds exactly where the second does.
-/

namespace Prac

/-- The search reports found iff a node in use has the key. -/
def ReportsStored (live : Nat → Prop) (mem : Nodes) (key : Value) (found : Bool) : Prop :=
  found = true ↔ ∃ a, live a ∧ mem.key a = key

/-- Where the key 0 is looked for, a node in use has it, or no step is left after the nodes on its path. -/
def SparesDummy (live : Nat → Prop) (mem : Nodes) (t : LinkedTree) (key : Value) (TTL : Nat) : Prop :=
  key = 0 → (∃ a, live a ∧ mem.key a = 0) ∨ TTL ≤ (t.path (BST.isAbove mem 0)).length

/-- A descent reports what is stored exactly where it does not come to the dummy node for the key 0. -/
theorem reportsStored_iff {mem : Nodes} {t : LinkedTree} {live : Nat → Prop} (hlive : ∀ {a}, live a ↔ a ∈ t.toList)
    (hzero : mem.holds 0 = 0) (hsearch : BST.SearchTree mem t) (key : Value) {TTL : Nat} (hTTL : t.height ≤ TTL) :
    ReportsStored live mem key (t.meets (BST.isKey mem key) (BST.isAbove mem key) TTL) ↔
      SparesDummy live mem t key TTL := by
  have hstored : (∃ a, live a ∧ mem.key a = key) ↔ ∃ a ∈ t.toList, mem.key a = key := by
    simp only [hlive]
  rw [ReportsStored, hsearch.meets_iff hzero key hTTL, hstored, SparesDummy]
  constructor
  · rintro hreports rfl
    by_cases hspine : TTL ≤ (t.path (BST.isAbove mem 0)).length
    · exact .inr hspine
    · exact .inl (hstored.2 (hreports.1 (.inr ⟨rfl, Nat.lt_of_not_le hspine⟩)))
  · intro hspares
    refine ⟨?_, .inl⟩
    rintro (hfound | ⟨rfl, hlt⟩)
    · exact hfound
    · rcases hspares rfl with hfound | hspine
      · exact hstored.1 hfound
      · exact absurd hlt (Nat.not_lt.2 hspine)

namespace AVL

variable {oramSize : Nat}

theorem Shaped.live_iff {b : AVL oramSize} {t : LinkedTree} (h : b.Shaped t) {a : Nat} :
    b.Live a ↔ a ∈ t.toList := by
  refine inUse_iff ?_ h.items fun hne => (h.tree hne).root
  by_cases hne : t = .nil
  · rw [hne]
    exact trivial
  · exact (h.tree hne).avl.stored

end AVL

variable {oramSize oramSize' : Nat}

/-- **The dummy node counts as a match for the key 0.**  A lookup or a deletion reports exactly the keys of the
nodes in use, unless it looks for 0, which no node has, and goes on past the nodes on the path of 0. -/
theorem found_flag_iff {b : BST oramSize} {t : LinkedTree} (hb : b.Holds t) (hzero : b.oram.holds 0 = 0)
    (hsearch : BST.SearchTree b.oram t) {c : AVL oramSize'} {s : LinkedTree} (hc : c.Shaped s)
    (hsearch' : BST.SearchTree c.oram s) (ht : 2 ≤ t.size) (hs : 2 ≤ s.size) (key : Value) (ret_node : Node)
    (OPTIMIZED : Bool) :
    (ReportsStored b.Live b.oram key (b.lookup key ret_node).1 ↔
      SparesDummy b.Live b.oram t key b.numItems) ∧
    (ReportsStored b.Live b.oram key (b.del key).1 ↔ SparesDummy b.Live b.oram t key b.numItems) ∧
    (ReportsStored c.Live c.oram key (c.lookup key ret_node).1 ↔
      SparesDummy c.Live c.oram s key c.numItems) ∧
    (ReportsStored c.Live c.oram key (c.del OPTIMIZED key).1 ↔
      SparesDummy c.Live c.oram s key (AVL_TTL c.numItems)) := by
  have hbst := reportsStored_iff hb.live_iff hzero hsearch key (hb.count ▸ t.height_le_size)
  refine ⟨?_, ?_, ?_, ?_⟩
  · rw [hb.lookup_reports hzero]
    exact hbst
  · rw [hb.del_reports hzero (hb.count ▸ ht)]
    exact hbst
  · rw [hc.lookup_eq]
    exact reportsStored_iff hc.live_iff hc.zero hsearch' key (hc.items ▸ s.height_le_size)
  · rw [hc.del_reports (hc.items ▸ hs)]
    exact reportsStored_iff hc.live_iff hc.zero hsearch' key hc.height_le_TTL

theorem BST.twoNodes_holds : BST.twoNodes.Holds (.node 1 .nil (.node 3 .nil .nil)) :=
  ⟨rfl, fun _ => ⟨rfl, by decide, by decide, by decide⟩⟩

theorem BST.twoNodes_searchTree : SearchTree twoNodes.oram (.node 1 .nil (.node 3 .nil .nil)) := by
  refine searchTree_of_ordered ?_ (by decide)
  rw [LinkedTree.ordered_le_iff]
  decide

/-- Looking for 13 in a BST with the keys 10 and 13 and in an AVL with the keys 10 and 20, and deleting it. -/
theorem found_flag_iff_thirteen :
    ReportsStored BST.twoNodes.Live BST.twoNodes.oram 13 (BST.twoNodes.lookup 13 0).1 ∧
      ReportsStored BST.twoNodes.Live BST.twoNodes.oram 13 (BST.twoNodes.del 13).1 ∧
      ReportsStored AVL.twoNodes.Live AVL.twoNodes.oram 13 (AVL.twoNodes.lookup 13 0).1 ∧
      ReportsStored AVL.twoNodes.Live AVL.twoNodes.oram 13 (AVL.twoNodes.del true 13).1 := by
  obtain ⟨hlookup, hdel, hlookup', hdel'⟩ := found_flag_iff BST.twoNodes_holds rfl BST.twoNodes_searchTree
    AVL.twoNodes_valid.shaped (BST.searchTree_of_ordered AVL.twoNodes_valid.ordered AVL.twoNodes_valid.keys)
    (by decide) (by decide) 13 0 true
  exact ⟨hlookup.2 fun h => absurd h (by decide), hdel.2 fun h => absurd h (by decide),
    hlookup'.2 fun h => absurd h (by decide), hdel'.2 fun h => absurd h (by decide)⟩

/-- Looking for 0 in these trees, and deleting it, reports it found, though no node has this key. -/
theorem dummy_found :
    (BST.twoNodes.Holds (.node 1 .nil (.node 3 .nil .nil)) ∧
      (∀ a, BST.twoNodes.Live a → BST.twoNodes.oram.key a ≠ 0) ∧
      (BST.twoNodes.lookup 0 0).1 = true ∧ (BST.twoNodes.del 0).1 = true) ∧
    AVL.twoNodes.Valid (.node 1 .nil (.node 2 .nil .nil)) ∧
      (∀ a, AVL.twoNodes.Live a → AVL.twoNodes.oram.key a ≠ 0) ∧
      (AVL.twoNodes.lookup 0 0).1 = true ∧ (AVL.twoNodes.del true 0).1 = true := by
  have hbst : ∀ a ∈ (LinkedTree.node 1 .nil (.node 3 .nil .nil)).toList, BST.twoNodes.oram.key a ≠ 0 := by
    decide
  have havl : ∀ a ∈ (LinkedTree.node 1 .nil (.node 2 .nil .nil)).toList, AVL.twoNodes.oram.key a ≠ 0 := by
    decide
  refine ⟨⟨BST.twoNodes_holds, fun a ha => hbst a (BST.twoNodes_holds.live_iff.1 ha), ?_, ?_⟩,
    AVL.twoNodes_valid, fun a ha => havl a (AVL.twoNodes_valid.shaped.live_iff.1 ha), ?_, ?_⟩
  · rw [BST.twoNodes_holds.lookup_reports rfl]
    decide
  · rw [BST.twoNodes_holds.del_reports rfl (by decide)]
    decide
  · rw [AVL.twoNodes_valid.shaped.lookup_eq]
    decide
  · rw [AVL.twoNodes_valid.shaped.del_reports (by decide)]
    decide +kernel

end Prac
