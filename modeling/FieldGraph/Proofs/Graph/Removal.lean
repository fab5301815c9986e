import FieldGraph.Proofs.Graph.Placeholders

/-!
# What a removal leaves

Taking a node out clears the edges to it, and what is brought up to date afterwards declares types on
the placeholders of composites that are still there.  A removal takes out a node and then, one after
another, its placeholders that no other composite lists.  Those are parameters, which list none
themselves, so that it can be decided at once which ones they are.
-/

namespace FieldGraph.Graph

variable {g g' g'' : Graph}

/-- The edge as a graph leaves it: cleared unless it leads to a live node. -/
def liveEdge (g : Graph) (e : Edge) : Edge := e.filter (g.contains ·)

theorem liveEdge_some_of_contains {s : NodeId} (h : g.contains s) : g.liveEdge (some s) = some s :=
  Option.filter_some_pos h

theorem liveEdge_some_of_not_contains {s : NodeId} (h : ¬ g.contains s) :
    g.liveEdge (some s) = none :=
  Option.filter_some_neg (Bool.eq_false_iff.2 h)

/-! ## Propagation -/

/-- A propagation changes no node but the placeholders of composites. -/
theorem node?_propagate {j : NodeId} (hj : j ∉ g.placeholders) (changed : List NodeId) :
    (g.propagate changed).node? j = g.node? j := by
  have hrun : ∀ steps queue, (settleWithin steps g queue).1.node? j = g.node? j := by
    intro steps queue
    refine (settleWithin_invariant (P := fun g' _ ↦ Retyped g g' ∧ g'.node? j = g.node? j)
      (fun g' id _ h ↦ ⟨h.1.trans (retyped_revisit g' id), ?_⟩) steps ⟨.refl g, rfl⟩).2
    cases hn : g'.node? id with
    | none =>
        have hdead : g'.entry? id = none := Option.map_eq_none_iff.1 hn
        rw [revisit_dead hdead]
        exact h.2
    | some n =>
        rw [node?_revisit hn, node?_declareArguments, h.2]
        intro hmem
        rw [Node.arguments_map_fst] at hmem
        obtain ⟨m, hm, ho⟩ := h.1.node? hn
        exact hj (mem_placeholders.2 ⟨id, m, hm, Node.placeholders_eq_of_outline ho ▸ hmem⟩)
  have hsettled := hrun g.budget changed
  unfold propagate
  split
  next g' heq => rwa [heq] at hsettled
  next g' rest hrest heq => rwa [heq] at hsettled

theorem Retyped.mem_placeholders_iff (h : Retyped g g') {p : NodeId} :
    p ∈ g'.placeholders ↔ p ∈ g.placeholders := by
  have mono {g g' : Graph} (h : Retyped g g') (hp : p ∈ g'.placeholders) : p ∈ g.placeholders := by
    obtain ⟨id, n, hn, hmem⟩ := mem_placeholders.1 hp
    obtain ⟨m, hm, heq, -⟩ := KeepsOwners.of_retyped h hn
    exact mem_placeholders.2 ⟨id, m, hm, heq ▸ hmem⟩
  exact ⟨mono h, mono h.symm⟩

/-! ## What is left -/

/-- What is left of a graph is what it was, but for edges to nodes that are gone and for the types
that composites declare on their placeholders. -/
structure LeftOf (g g' : Graph) : Prop where
  live : ∀ {j}, g'.contains j → g.contains j
  node : ∀ {j m}, g.node? j = some m → g'.contains j → ∃ m', g'.node? j = some m' ∧
    m'.outline = (m.mapEdges g'.liveEdge).outline ∧
      (j ∉ g'.placeholders → m' = m.mapEdges g'.liveEdge)

/-- In a well-formed graph every edge is left. -/
theorem leftOf_refl (hw : g.WellFormed) : LeftOf g g where
  live h := h
  node {j m} hm _ := by
    obtain ⟨e, he, rfl⟩ := node?_eq_some_iff.1 hm
    have hself : e.node.mapEdges g.liveEdge = e.node :=
      Node.mapEdges_eq_self rfl fun s hs ↦ liveEdge_some_of_contains (hw.edges_live he hs)
    exact ⟨e.node, hm, by rw [hself], fun _ ↦ hself.symm⟩

/-- An edge that has been cleared is cleared for good. -/
theorem LeftOf.mapEdges_mapEdges (h : LeftOf g g') (m : Node) :
    (m.mapEdges g.liveEdge).mapEdges g'.liveEdge = m.mapEdges g'.liveEdge := by
  rw [Node.mapEdges_mapEdges]
  refine Node.mapEdges_congr rfl fun s _ ↦ ?_
  by_cases hs : g.contains s
  · rw [liveEdge_some_of_contains hs]
  · rw [liveEdge_some_of_not_contains hs, liveEdge_some_of_not_contains (mt h.live hs)]
    rfl

theorem LeftOf.trans (h : LeftOf g g') (h' : LeftOf g' g'')
    (hp : ∀ p ∈ g'.placeholders, p ∈ g''.placeholders) : LeftOf g g'' where
  live hj := h.live (h'.live hj)
  node {j m} hm hj := by
    obtain ⟨m', hm', ho', hsame'⟩ := h.node hm (h'.live hj)
    obtain ⟨m'', hm'', ho'', hsame''⟩ := h'.node hm' hj
    refine ⟨m'', hm'', ?_, fun hnot ↦ ?_⟩
    · rw [ho'', Node.outline_mapEdges, ho', ← Node.outline_mapEdges, h'.mapEdges_mapEdges]
    · rw [hsame'' hnot, hsame' (mt (hp j) hnot), h'.mapEdges_mapEdges]

/-! ## One node -/

section TakeOut

variable {id j p : NodeId} {e : Entry}

theorem node?_detach (hw : g.WellFormed) (he : g.entry? id = some e) (hj : j ≠ id) :
    (g.detach id e).node? j = (g.node? j).map (Node.clear id) := by
  rw [node?, node?, hw.entry?_detach he, if_neg hj]
  cases g.entry? j <;> rfl

theorem node?_detach_self (hw : g.WellFormed) (he : g.entry? id = some e) :
    (g.detach id e).node? id = none := by
  rw [node?, hw.entry?_detach he, if_pos rfl]
  rfl

theorem contains_detach (hw : g.WellFormed) (he : g.entry? id = some e) :
    (g.detach id e).contains j ↔ g.contains j ∧ j ≠ id := by
  rw [Graph.contains_eq, Graph.contains_eq, hw.entry?_detach he]
  by_cases hj : j = id
  · simp [hj]
  · simp [hj]

/-- Taking a node out is detaching it, and retyping what is left. -/
theorem retyped_takeOut (g : Graph) (id : NodeId) (e : Entry) :
    Retyped (g.detach id e) (g.takeOut id e) := retyped_propagate _ e.consumers

theorem contains_takeOut (hw : g.WellFormed) (he : g.entry? id = some e) :
    (g.takeOut id e).contains j ↔ g.contains j ∧ j ≠ id := by
  rw [(retyped_takeOut g id e).contains_eq, contains_detach hw he]

/-- The placeholders that are left in use are those of the other composites. -/
theorem mem_placeholders_takeOut (hw : g.WellFormed) (he : g.entry? id = some e) :
    p ∈ (g.takeOut id e).placeholders ↔
      ∃ c m, c ≠ id ∧ g.node? c = some m ∧ p ∈ m.placeholders := by
  rw [(retyped_takeOut g id e).mem_placeholders_iff, mem_placeholders]
  constructor
  · rintro ⟨c, m, hm, hp⟩
    have hc : c ≠ id := by
      rintro rfl
      cases (node?_detach_self hw he).symm.trans hm
    rw [node?_detach hw he hc] at hm
    obtain ⟨m₀, hm₀, rfl⟩ := Option.map_eq_some_iff.1 hm
    exact ⟨c, m₀, hc, hm₀, Node.placeholders_mapEdges .. ▸ hp⟩
  · rintro ⟨c, m, hc, hm, hp⟩
    have hclear : (m.clear id).placeholders = m.placeholders := Node.placeholders_mapEdges ..
    refine ⟨c, m.clear id, ?_, hclear ▸ hp⟩
    rw [node?_detach hw he hc, hm, Option.map_some]

theorem leftOf_takeOut (hw : g.WellFormed) (he : g.entry? id = some e) :
    LeftOf g (g.takeOut id e) where
  live h := ((contains_takeOut hw he).1 h).1
  node {j m} hm hj := by
    obtain ⟨f, hf, rfl⟩ := node?_eq_some_iff.1 hm
    have hne : j ≠ id := ((contains_takeOut hw he).1 hj).2
    have hretyped := retyped_takeOut g id e
    have hclear : f.node.clear id = f.node.mapEdges (g.takeOut id e).liveEdge := by
      refine Node.mapEdges_congr rfl fun s hs ↦ ?_
      have hlive := hw.edges_live hf hs
      by_cases hid : s = id
      · rw [if_pos (congrArg some hid), liveEdge_some_of_not_contains fun h ↦
          ((contains_takeOut hw he).1 h).2 hid]
      · rw [if_neg (mt Option.some.inj hid),
          liveEdge_some_of_contains ((contains_takeOut hw he).2 ⟨hlive, hid⟩)]
    have hdetach : (g.detach id e).node? j = some (f.node.clear id) := by
      rw [node?_detach hw he hne, hm, Option.map_some]
    obtain ⟨m', hm', ho⟩ := hretyped.symm.node? hdetach
    refine ⟨m', hm', by rw [← ho, hclear], fun hnot ↦ ?_⟩
    have hsame : (g.takeOut id e).node? j = (g.detach id e).node? j :=
      node?_propagate (mt hretyped.mem_placeholders_iff.2 hnot) _
    rw [hsame, hdetach] at hm'
    rw [← hclear]
    exact (Option.some.inj hm').symm

end TakeOut

/-! ## Placeholders of a removed composite -/

/-- The second graph is the first one without those of the listed nodes that no composite has for a
placeholder. -/
structure Dropped (ps : List NodeId) (g g' : Graph) : Prop where
  leftOf : LeftOf g g'
  mem_placeholders_iff : ∀ {p}, p ∈ g'.placeholders ↔ p ∈ g.placeholders
  contains_iff : ∀ {j}, g'.contains j ↔ g.contains j ∧ ¬ (j ∈ ps ∧ j ∉ g.placeholders)

theorem dropped_dropPlaceholder (hw : g.WellFormed) {p : NodeId}
    (hp : ∀ n, g.node? p = some n → n.isParameter) : Dropped [p] g (g.dropPlaceholder p) := by
  unfold dropPlaceholder
  split
  next hshared =>
    exact ⟨leftOf_refl hw, .rfl, fun {j} ↦ ⟨fun hj ↦ ⟨hj, by grind⟩, And.left⟩⟩
  next hsole =>
    split
    next e he =>
      have hpar := hp e.node (node?_of_entry he)
      refine ⟨leftOf_takeOut hw he, fun {q} ↦ ?_, fun {j} ↦ ?_⟩
      · -- a parameter lists no placeholders
        rw [mem_placeholders_takeOut hw he, mem_placeholders]
        constructor
        · rintro ⟨c, m, -, hm, hq⟩
          exact ⟨c, m, hm, hq⟩
        · rintro ⟨c, m, hm, hq⟩
          refine ⟨c, m, ?_, hm, hq⟩
          rintro rfl
          obtain rfl := Option.some.inj (hm.symm.trans (node?_of_entry he))
          obtain ⟨i, t, hnode⟩ := Node.exists_parameter_of_isParameter hpar
          rw [hnode] at hq
          cases hq
      · rw [contains_takeOut hw he]
        grind
    next hdead =>
      refine ⟨leftOf_refl hw, .rfl, fun {j} ↦ ⟨fun hj ↦ ⟨hj, ?_⟩, And.left⟩⟩
      rintro ⟨hmem, -⟩
      obtain rfl := List.mem_singleton.1 hmem
      rw [Graph.contains_eq, hdead] at hj
      cases hj

theorem Dropped.cons {p : NodeId} {ps : List NodeId} (h : Dropped [p] g g')
    (h' : Dropped ps g' g'') : Dropped (p :: ps) g g'' where
  leftOf := h.leftOf.trans h'.leftOf fun _ ↦ h'.mem_placeholders_iff.2
  mem_placeholders_iff := h'.mem_placeholders_iff.trans h.mem_placeholders_iff
  contains_iff {j} := by
    rw [h'.contains_iff, h.contains_iff, h.mem_placeholders_iff, List.mem_singleton, List.mem_cons]
    grind

theorem dropped_foldl (hw : g.WellFormed) {ps : List NodeId}
    (hps : ∀ p ∈ ps, ∀ n, g.node? p = some n → n.isParameter) :
    Dropped ps g (ps.foldl dropPlaceholder g) := by
  induction ps generalizing g with
  | nil => exact ⟨leftOf_refl hw, .rfl, by simp⟩
  | cons p ps ih =>
      have hw' := (steps_dropPlaceholder g p).wellFormed hw
      refine (dropped_dropPlaceholder hw (hps p List.mem_cons_self)).cons (ih hw' fun q hq n hn ↦ ?_)
      obtain ⟨m, hm, -, hpar⟩ := keepsOwners_dropPlaceholder hw p hn
      exact hpar.trans (hps q (List.mem_cons_of_mem p hq) m hm)

/-! ## Whole removals -/

/-- A removed node takes those of its placeholders with it that no other composite lists. -/
structure Removed (g : Graph) (id : NodeId) (n : Node) (g' : Graph) : Prop where
  leftOf : LeftOf g g'
  contains_iff : ∀ {j}, g'.contains j ↔ g.contains j ∧ j ≠ id ∧
    ¬ (j ∈ n.placeholders ∧ ∀ c m, c ≠ id → g.node? c = some m → j ∉ m.placeholders)

theorem exists_removed (hw : g.WellFormed) {id : NodeId} {n : Node} (hn : g.node? id = some n) :
    ∃ g', g.remove id = .ok (n, g') ∧ Removed g id n g' := by
  obtain ⟨e, he, rfl⟩ := node?_eq_some_iff.1 hn
  have hremove : g.remove id = .ok (e.node, e.node.placeholders.foldl dropPlaceholder
      (g.takeOut id e)) := by rw [remove, he]
  refine ⟨_, hremove, ?_⟩
  have hparameters : ∀ p ∈ e.node.placeholders, ∀ m, (g.takeOut id e).node? p = some m →
      m.isParameter := fun p hp m hm ↦ by
    obtain ⟨m₀, hm₀, -, hpar⟩ := keepsOwners_takeOut hw he hm
    obtain ⟨f, hf, rfl⟩ := node?_eq_some_iff.1 hm₀
    exact hpar.trans ((hw.placeholders he hp).2 f hf)
  have hd := dropped_foldl ((steps_takeOut he).wellFormed hw) hparameters
  refine ⟨(leftOf_takeOut hw he).trans hd.leftOf fun _ ↦ hd.mem_placeholders_iff.2, fun {j} ↦ ?_⟩
  have hsole : j ∉ (g.takeOut id e).placeholders ↔
      ∀ c m, c ≠ id → g.node? c = some m → j ∉ m.placeholders := by
    rw [mem_placeholders_takeOut hw he]
    grind
  rw [hd.contains_iff, contains_takeOut hw he, hsole, and_assoc]

/-! ## Positions are not used again -/

theorem Change.capacity_le {touched : List NodeId} (hc : Change g touched g') :
    g.capacity ≤ g'.capacity := by
  cases hc with
  | attach => exact Nat.le_of_lt (Nat.lt_of_lt_of_eq (Nat.lt_succ_self _) (attach_fields g _).1.symm)
  | rewire => exact Nat.le_of_eq (rewire_fields g _ _ _ _).1.symm
  | replace => exact Nat.le_of_eq (capacity_modifyEntry ..).symm
  | detach => exact Nat.le_of_eq (detach_fields g _ _).1.symm

/-- A change brings nothing to life but the node at the next position. -/
theorem Change.contains_or_eq_nextId (hw : g.WellFormed) {touched : List NodeId}
    (hc : Change g touched g') {j : NodeId} (hj : g'.contains j) :
    g.contains j ∨ j = g.nextId := by
  cases hc with
  | attach hn =>
      rw [contains_attach hn.edges_live, Bool.or_eq_true, decide_eq_true_iff] at hj
      exact hj.symm
  | rewire => exact .inl (by rwa [contains_rewire] at hj)
  | replace => exact .inl (by rwa [setNode, contains_modifyEntry] at hj)
  | detach he => exact .inl ((contains_detach hw he).1 hj).1

namespace Steps

theorem capacity_le (hs : Steps g g') : g.capacity ≤ g'.capacity := by
  induction hs with
  | refl => exact Nat.le_refl _
  | @step g₁ g₂ touched _ hc ih =>
      rw [(retyped_propagate g₂ touched).capacity_eq]
      exact Nat.le_trans ih hc.capacity_le

/-- What has been at a position and is gone stays away. -/
theorem not_contains (hs : Steps g g') (hw : g.WellFormed) {j : NodeId}
    (hlt : j.index < g.capacity) (hdead : ¬ g.contains j) : ¬ g'.contains j := by
  induction hs with
  | refl => exact hdead
  | @step g₁ g₂ touched hs hc ih =>
      rw [(retyped_propagate g₂ touched).contains_eq]
      intro hj
      rcases hc.contains_or_eq_nextId (hs.wellFormed hw) hj with hlive | rfl
      · exact ih hlive
      · exact absurd (Nat.lt_of_lt_of_le hlt hs.capacity_le) (Nat.lt_irrefl _)

end Steps

/-- Removal is exact.  A live node can be removed, and with it go those of its placeholders that no
other live node lists, and nothing else.  What is left keeps all but the edges to what is gone, which
are cleared, and the types that parameters declare, which change only where a composite that is left
has the parameter for a placeholder.  Nothing that is gone ever comes back. -/
theorem remove_exact {actions : List Action} {id : NodeId} {n : Node}
    (hn : (after actions).node? id = some n) :
    let g := after actions
    ∃ g', g.remove id = .ok (n, g') ∧
      (∀ j, g'.contains j ↔ g.contains j ∧ j ≠ id ∧
        ¬ (j ∈ n.placeholders ∧ ∀ c m, c ≠ id → g.node? c = some m → j ∉ m.placeholders)) ∧
      (∀ j m, g.node? j = some m → g'.contains j → ∃ m', g'.node? j = some m' ∧
        m'.outline = (m.mapEdges g'.liveEdge).outline ∧
        (∀ port, m'.port? port = (m.port? port).map g'.liveEdge) ∧
        (j ∉ g'.placeholders → m' = m.mapEdges g'.liveEdge)) ∧
      ∀ more j, g.contains j → ¬ g'.contains j →
        ¬ (after (actions ++ .remove id :: more)).contains j := by
  intro g
  have hw : g.WellFormed := wellFormed_after actions
  obtain ⟨g', hremove, hremoved⟩ := exists_removed hw hn
  refine ⟨g', hremove, fun j ↦ hremoved.contains_iff, fun j m hm hj ↦ ?_, fun more j hlive hdead ↦ ?_⟩
  · obtain ⟨m', hm', ho, hsame⟩ := hremoved.leftOf.node hm hj
    refine ⟨m', hm', ho, fun port ↦ ?_, hsame⟩
    rw [← Node.port?_outline m', ho, Node.port?_outline, Node.port?_mapEdges]
  · obtain ⟨e, he⟩ := contains_iff.1 hlive
    have hsteps := steps_remove hremove
    have hlt : j.index < g'.capacity := Nat.lt_of_lt_of_le (index_lt_of_entry he) hsteps.capacity_le
    have happly : (Action.remove id).apply g = g' := by
      rw [Action.apply, Action.perform, hremove]
      rfl
    have hafter : after (actions ++ .remove id :: more) = more.foldl Action.apply g' := by
      rw [after, List.foldl_append, List.foldl_cons]
      exact congrArg (more.foldl Action.apply) happly
    have hw' := hsteps.wellFormed hw
    rw [hafter]
    exact (steps_foldl_apply hw' more).not_contains hw' hlt hdead

/-- A composite of two arguments, another one that has been added over the first of its placeholders,
and a node that reads the composite twice. -/
def sharedPlaceholder : List Action :=
  [.compositeBinary, .add (.compositeUnary none none ⟨0⟩), .binary .add ⟨2⟩ ⟨2⟩]

/-- Only the second placeholder goes with the composite, and its position stays free. -/
theorem remove_sharedPlaceholder :
    (after sharedPlaceholder).node? ⟨2⟩ = some (.compositeBinary none none none ⟨0⟩ ⟨1⟩) ∧
      ∃ g', (after sharedPlaceholder).remove ⟨2⟩ =
          .ok (.compositeBinary none none none ⟨0⟩ ⟨1⟩, g') ∧
        g'.ids = [⟨0⟩, ⟨3⟩, ⟨4⟩] ∧
        (∃ m, g'.node? ⟨4⟩ = some m ∧ m.port? .lhs = some none ∧ m.port? .rhs = some none) ∧
        ¬ (after (sharedPlaceholder ++ [.remove ⟨2⟩, .compositeUnary])).contains ⟨1⟩ := by
  have hn : (after sharedPlaceholder).node? ⟨2⟩ =
      some (.compositeBinary none none none ⟨0⟩ ⟨1⟩) := by decide +kernel
  obtain ⟨g', hremove, hlive, hleft, hgone⟩ := remove_exact hn
  have hleftIds : ((after sharedPlaceholder).remove ⟨2⟩).toOption.map (·.2.ids) =
      some [⟨0⟩, ⟨3⟩, ⟨4⟩] := by decide +kernel
  rw [hremove] at hleftIds
  have hids : g'.ids = [⟨0⟩, ⟨3⟩, ⟨4⟩] := Option.some.inj hleftIds
  have hcleared : g'.liveEdge (some ⟨2⟩) = none := by
    refine liveEdge_some_of_not_contains fun h ↦ ?_
    rw [← mem_ids, hids] at h
    exact absurd h (by decide)
  have hsum : (after sharedPlaceholder).node? ⟨4⟩ = some (.binary .add (some ⟨2⟩) (some ⟨2⟩)) := by
    decide +kernel
  obtain ⟨m, hm, -, hports, -⟩ := hleft ⟨4⟩ _ hsum (mem_ids.1 (hids.symm ▸ by decide))
  refine ⟨hn, g', hremove, hids, ⟨m, hm, ?_, ?_⟩, hgone [.compositeUnary] ⟨1⟩ ?_ fun h ↦ ?_⟩
  · exact (hports .lhs).trans (congrArg some hcleared)
  · exact (hports .rhs).trans (congrArg some hcleared)
  · decide +kernel
  · rw [← mem_ids, hids] at h
    exact absurd h (by decide)

end FieldGraph.Graph
