import FieldGraph.Proofs.Graph.Retyping

/-!
# Changes of the wiring

Adding a node, rewiring a port, replacing a node by one with the same edges, and taking a node out:
every edit is made of these, each followed by a propagation from the nodes it touched.
-/

namespace FieldGraph

/-- A sequence of checks succeeds step by step. -/
theorem except_bind_eq_ok {ε α β : Type} {x : Except ε α} {f : α → Except ε β} {b : β}
    (h : (x >>= f) = .ok b) : ∃ a, x = .ok a ∧ f a = .ok b := by
  cases x with
  | error e => cases h
  | ok a => exact ⟨a, rfl, h⟩

/-- The nodes that read a node, each once, in order of position. -/
def Entry.consumers (e : Entry) : List NodeId :=
  e.dependents.eraseDups.mergeSort (·.index ≤ ·.index)

namespace Graph

variable {g : Graph}

/-! ## Adding a node -/

/-- Append a node and subscribe it to what it reads. -/
def attach (g : Graph) (n : Node) : Graph :=
  n.edges.foldl (fun g' s ↦ g'.subscribe g.nextId s) (g.push n)

theorem attach_fields (g : Graph) (n : Node) :
    (g.attach n).capacity = g.capacity + 1 ∧ (g.attach n).size = g.size + 1 ∧
      (g.attach n).settled = g.settled := by
  obtain ⟨hc, hs, ht⟩ := foldl_modifyEntry_fields n.edges
    (fun _ e ↦ { e with dependents := e.dependents ++ [g.nextId] }) (g.push n)
  exact ⟨hc.trans (capacity_push g n), hs, ht⟩

/-- A new node that reads live nodes only is consumed by nothing, and every other node gains one
consumer for each edge to it. -/
theorem entry?_attach {n : Node} (hn : ∀ s ∈ n.edges, g.contains s) (j : NodeId) :
    entry? (g.attach n) j = if j = g.nextId then some ⟨n, .none, []⟩ else
      (g.entry? j).map fun e ↦
        { e with dependents := e.dependents ++ List.replicate (n.edges.count j) g.nextId } := by
  rw [attach, entry?_subscribeAll, entry?_push]
  split
  next h =>
    have hcount : n.edges.count j = 0 := by
      rw [List.count_eq_zero, h]
      exact fun hmem ↦ ne_nextId_of_contains (hn _ hmem) rfl
    simp [hcount]
  · rfl

theorem entry?_attach_nextId {n : Node} (hn : ∀ s ∈ n.edges, g.contains s) :
    entry? (g.attach n) g.nextId = some ⟨n, .none, []⟩ := by simp [entry?_attach hn]

theorem entry?_attach_of_contains {n : Node} (hn : ∀ s ∈ n.edges, g.contains s) {j : NodeId}
    {e : Entry} (he : g.entry? j = some e) :
    entry? (g.attach n) j = some { e with
      dependents := e.dependents ++ List.replicate (n.edges.count j) g.nextId } := by
  rw [entry?_attach hn, if_neg (ne_nextId_of_contains (contains_of_entry he)), he]
  rfl

theorem contains_attach {n : Node} (hn : ∀ s ∈ n.edges, g.contains s) (j : NodeId) :
    (g.attach n).contains j = (decide (j = g.nextId) || g.contains j) := by
  by_cases h : j = g.nextId <;> simp [contains_eq, entry?_attach hn, h]

/-! ## Rewiring a port -/

/-- Put a node with another edge in the place of a node, and move its subscription. -/
def rewire (g : Graph) (id : NodeId) (n : Node) (former source : Edge) : Graph :=
  source.toList.foldl (fun g s ↦ g.subscribe id s)
    (former.toList.foldl (fun g s ↦ g.unsubscribe id s) (g.setNode id n))

theorem rewire_fields (g : Graph) (id : NodeId) (n : Node) (former source : Edge) :
    (g.rewire id n former source).capacity = g.capacity ∧
      (g.rewire id n former source).size = g.size ∧
        (g.rewire id n former source).settled = g.settled := by
  cases former <;> cases source <;>
    exact ⟨by simp [rewire, setNode, subscribe, unsubscribe], rfl, rfl⟩

theorem entry?_rewire (g : Graph) (id : NodeId) (n : Node) (former source : Edge) (j : NodeId) :
    entry? (g.rewire id n former source) j = (g.entry? j).map fun e ↦
      { e with
        node := if id = j then n else e.node
        dependents := eraseTimes id (former.toList.count j) e.dependents ++
          List.replicate (source.toList.count j) id } := by
  rw [rewire, entry?_subscribeAll, entry?_unsubscribeAll, entry?_setNode]
  cases g.entry? j with
  | none => simp
  | some e => by_cases h : id = j <;> simp [h]

theorem contains_rewire (g : Graph) (id : NodeId) (n : Node) (former source : Edge) (j : NodeId) :
    (g.rewire id n former source).contains j = g.contains j := by
  simp [contains_eq, entry?_rewire]

theorem checkSource_eq_ok_iff {source : Edge} :
    g.checkSource source = .ok () ↔ ∀ s ∈ source, g.contains s := by
  cases source with
  | none => simp [checkSource]
  | some s => simp [checkSource]

/-- An accepted rewiring has a live source and an existing port. -/
theorem exists_rewire_of_setEdge {id : NodeId} {port : Port} {source : Edge} {g' : Graph}
    (h : g.setEdge id port source = .ok g') :
    ∃ n former n', (∀ s ∈ source, g.contains s) ∧ g.node? id = some n ∧
      n.port? port = some former ∧ n.setPort? source port = some n' ∧
        g' = (g.rewire id n' former source).propagate [id] := by
  unfold setEdge at h
  obtain ⟨⟨⟩, hc, h⟩ := except_bind_eq_ok h
  split at h
  next n hn =>
    split at h
    next former hf =>
      split at h
      next n' hn' =>
        cases h
        exact ⟨n, former, n', checkSource_eq_ok_iff.1 hc, hn, hf, hn', rfl⟩
      · cases h
    · cases h
  · cases h

/-- An accepted revision replaces the node and keeps its place. -/
theorem exists_setNode_of_revise {id : NodeId} {kind : String} {f : Node → Option Node}
    {g' : Graph} (h : g.revise id kind f = .ok g') :
    ∃ n n', g.node? id = some n ∧ f n = some n' ∧ g' = (g.setNode id n').propagate [id] := by
  unfold revise at h
  split at h
  · cases h
  next n hn =>
    split at h
    next n' hn' =>
      cases h
      exact ⟨n, n', hn, hn', rfl⟩
    · cases h

/-! ## Taking a node out -/

theorem mem_consumers {e : Entry} {c : NodeId} : c ∈ e.consumers ↔ c ∈ e.dependents := by
  rw [Entry.consumers, List.mem_mergeSort, List.mem_eraseDups]

/-- Drop a node, its subscriptions and the edges to it. -/
def detach (g : Graph) (id : NodeId) (e : Entry) : Graph :=
  e.consumers.foldl (fun g c ↦ g.clearEdgesTo id c)
    (e.node.edges.foldl (fun g s ↦ g.unsubscribe id s)
      { g with entries := g.entries.erase id, size := g.size - 1 })

theorem detach_fields (g : Graph) (id : NodeId) (e : Entry) :
    (g.detach id e).capacity = g.capacity ∧ (g.detach id e).size = g.size - 1 ∧
      (g.detach id e).settled = g.settled := by
  obtain ⟨hc, hs, ht⟩ := foldl_modifyEntry_fields e.node.edges
    (fun _ f ↦ { f with dependents := f.dependents.erase id })
    { g with entries := g.entries.erase id, size := g.size - 1 }
  obtain ⟨hc', hs', ht'⟩ := foldl_modifyEntry_fields e.consumers
    (fun _ f ↦ { f with node := f.node.clear id })
    (e.node.edges.foldl (fun g s ↦ g.unsubscribe id s)
      { g with entries := g.entries.erase id, size := g.size - 1 })
  exact ⟨(hc'.trans hc).trans (NodeMap.capacity_erase ..), hs'.trans hs, ht'.trans ht⟩

theorem entry?_clearEdgesToAll (id : NodeId) (cs : List NodeId) (g : Graph) (j : NodeId) :
    entry? (cs.foldl (fun g c ↦ g.clearEdgesTo id c) g) j = (g.entry? j).map fun f ↦
      { f with node := if j ∈ cs then f.node.clear id else f.node } := by
  induction cs generalizing g with
  | nil => cases h : g.entry? j <;> simp [h]
  | cons c cs ih =>
      have hclear : g.clearEdgesTo id c =
        g.modifyEntry c fun f ↦ { f with node := f.node.clear id } := rfl
      rw [List.foldl_cons, ih, hclear, entry?_modifyEntry]
      cases g.entry? j with
      | none => simp
      | some f =>
          by_cases hc : c = j
          · subst hc
            by_cases hm : c ∈ cs
            · simp [hm, Node.clear_clear]
            · simp [hm]
          · simp [hc, Ne.symm hc]

/-- Taking out a node whose readers are all among its consumers leaves no edge to it. -/
theorem entry?_detach {id : NodeId} {e : Entry}
    (hreaders : ∀ j f, g.entry? j = some f → id ∈ f.node.edges → j ∈ e.dependents) (j : NodeId) :
    entry? (g.detach id e) j = if j = id then none else (g.entry? j).map fun f ↦
      { f with
        node := f.node.clear id
        dependents := eraseTimes id (e.node.edges.count j) f.dependents } := by
  have herase : entry? ({ g with entries := g.entries.erase id, size := g.size - 1 } : Graph) j =
      if id = j then none else g.entry? j := NodeMap.get?_erase ..
  rw [detach, entry?_clearEdgesToAll, entry?_unsubscribeAll, herase]
  by_cases hj : id = j
  · simp [hj]
  · rw [if_neg hj, if_neg (Ne.symm hj)]
    cases he : g.entry? j with
    | none => rfl
    | some f =>
        by_cases hm : j ∈ e.consumers
        · simp [hm]
        · have hedge : id ∉ f.node.edges := fun h ↦ hm (mem_consumers.2 (hreaders j f he h))
          simp [hm, Node.clear_eq_self hedge]

end Graph

end FieldGraph
