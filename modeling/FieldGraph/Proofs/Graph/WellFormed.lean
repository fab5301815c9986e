import FieldGraph.Proofs.Graph.Wiring

/-!
# Well-formed graphs

Edges lead to live nodes, the list of consumers of a node counts the ports that are wired to it, and
placeholders are parameters.  Every change of the wiring keeps this exact.
-/

namespace FieldGraph.Graph

/-- The bookkeeping of a graph agrees with its edges. -/
structure WellFormed (g : Graph) : Prop where
  edges_live : ∀ {id e s}, g.entry? id = some e → s ∈ e.node.edges → g.contains s
  dependents_live : ∀ {id e c}, g.entry? id = some e → c ∈ e.dependents → g.contains c
  count_dependents : ∀ {s e c f}, g.entry? s = some e → g.entry? c = some f →
    e.dependents.count c = f.node.edges.count s
  arity : ∀ {id e}, g.entry? id = some e → e.node.ArityOk
  /-- A placeholder is a parameter, or has been removed. -/
  placeholders : ∀ {id e p}, g.entry? id = some e → p ∈ e.node.placeholders →
    p.index < g.capacity ∧ ∀ f, g.entry? p = some f → f.node.isParameter
  size_eq : g.size = g.ids.length

/-- A node that may be added: it reads live nodes, and its placeholders are live parameters. -/
structure Admissible (g : Graph) (n : Node) : Prop where
  edges_live : ∀ s ∈ n.edges, g.contains s
  arity : n.ArityOk
  placeholders : ∀ p ∈ n.placeholders, ∃ f, g.entry? p = some f ∧ f.node.isParameter

namespace WellFormed

variable {g : Graph}

theorem empty : WellFormed empty where
  edges_live h := by simp at h
  dependents_live h := by simp at h
  count_dependents h := by simp at h
  arity h := by simp at h
  placeholders h := by simp at h
  size_eq := rfl

theorem mem_dependents_iff (h : g.WellFormed) {s c : NodeId} {e f : Entry}
    (he : g.entry? s = some e) (hf : g.entry? c = some f) :
    c ∈ e.dependents ↔ s ∈ f.node.edges := by
  rw [← List.count_pos_iff, h.count_dependents he hf, List.count_pos_iff]

/-- What reads a node is among its consumers. -/
theorem mem_dependents (h : g.WellFormed) {s c : NodeId} {e f : Entry}
    (he : g.entry? s = some e) (hf : g.entry? c = some f) (hs : s ∈ f.node.edges) :
    c ∈ e.dependents := (h.mem_dependents_iff he hf).2 hs

/-- Well-formedness is a matter of the wiring: entries may change in everything else. -/
theorem of_entries {g' : Graph} (h : g.WellFormed)
    (entry : ∀ {j : NodeId} {e : Entry}, g'.entry? j = some e → ∃ f, g.entry? j = some f ∧
      e.dependents = f.dependents ∧ f.node.Replaceable e.node)
    (live : ∀ j, g'.contains j = g.contains j) (hcap : g'.capacity = g.capacity)
    (hsize : g'.size = g.size) : g'.WellFormed where
  edges_live he hs := by
    obtain ⟨e, he, -, hr⟩ := entry he
    rw [live]
    exact h.edges_live he (hr.edges_eq ▸ hs)
  dependents_live he hc := by
    obtain ⟨e, he, hd, -⟩ := entry he
    rw [live]
    exact h.dependents_live he (hd ▸ hc)
  count_dependents he hf := by
    obtain ⟨e, he, hd, -⟩ := entry he
    obtain ⟨f, hf, -, hr⟩ := entry hf
    rw [hd, hr.edges_eq]
    exact h.count_dependents he hf
  arity he := by
    obtain ⟨e, he, -, hr⟩ := entry he
    exact hr.arity (h.arity he)
  placeholders he hp := by
    obtain ⟨e, he, -, hr⟩ := entry he
    obtain ⟨hlt, hpar⟩ := h.placeholders he (hr.placeholders_eq ▸ hp)
    refine ⟨hcap ▸ hlt, fun f hf ↦ ?_⟩
    obtain ⟨f, hf, -, hr'⟩ := entry hf
    exact hr'.isParameter_eq.trans (hpar f hf)
  size_eq := by rw [hsize, h.size_eq, ids_congr hcap live]

theorem retyped {g' : Graph} (h : g.WellFormed) (hr : Retyped g g') : g'.WellFormed :=
  h.of_entries (fun he ↦ by
    obtain ⟨f, hf, ho, hd⟩ := hr.entry he
    exact ⟨f, hf, hd, .of_outline ho⟩) hr.contains_eq hr.capacity_eq hr.size_eq

theorem propagate (h : g.WellFormed) (changed : List NodeId) : (g.propagate changed).WellFormed :=
  h.retyped (retyped_propagate g changed)

/-! ## Adding a node -/

theorem attach (h : g.WellFormed) {n : Node} (hn : g.Admissible n) : (g.attach n).WellFormed := by
  -- every entry after the change is the new one, or an old one with more consumers
  have entry {j : NodeId} {e : Entry} (he : entry? (g.attach n) j = some e) :
      (j = g.nextId ∧ e = ⟨n, .none, []⟩) ∨ ∃ f, g.entry? j = some f ∧
        e = { f with dependents :=
          f.dependents ++ List.replicate (n.edges.count j) g.nextId } := by
    rw [entry?_attach hn.edges_live] at he
    split at he
    next hj => exact .inl ⟨hj, (Option.some.inj he).symm⟩
    · obtain ⟨f, hf, rfl⟩ := Option.map_eq_some_iff.1 he
      exact .inr ⟨f, hf, rfl⟩
  have live {s : NodeId} (hs : g.contains s) : (g.attach n).contains s := by
    simp [contains_attach hn.edges_live, hs]
  have fresh_not_mem {l : List NodeId} (hl : ∀ s ∈ l, g.contains s) : l.count g.nextId = 0 :=
    List.count_eq_zero.2 fun hmem ↦ ne_nextId_of_contains (hl _ hmem) rfl
  obtain ⟨hcap, hsize, -⟩ := attach_fields g n
  constructor
  case edges_live =>
    intro j e s he hs
    rcases entry he with ⟨-, rfl⟩ | ⟨f, hf, rfl⟩
    · exact live (hn.edges_live s hs)
    · exact live (h.edges_live hf hs)
  case dependents_live =>
    intro j e c he hc
    rcases entry he with ⟨-, rfl⟩ | ⟨f, hf, rfl⟩
    · cases hc
    · rcases List.mem_append.1 hc with hc | hc
      · exact live (h.dependents_live hf hc)
      · simp [contains_attach hn.edges_live, List.eq_of_mem_replicate hc]
  case count_dependents =>
    intro s e c f he hf
    rcases entry he with ⟨rfl, rfl⟩ | ⟨e₀, he₀, rfl⟩ <;>
      rcases entry hf with ⟨rfl, rfl⟩ | ⟨f₀, hf₀, rfl⟩
    · exact (fresh_not_mem hn.edges_live).symm
    · exact (fresh_not_mem fun s hs ↦ h.edges_live hf₀ hs).symm
    · rw [List.count_append, List.count_replicate_self,
        fresh_not_mem fun c hc ↦ h.dependents_live he₀ hc, Nat.zero_add]
    · have hne : g.nextId ≠ c := (ne_nextId_of_contains (contains_of_entry hf₀)).symm
      rw [List.count_append, List.count_replicate, h.count_dependents he₀ hf₀]
      simp [hne]
  case arity =>
    intro j e he
    rcases entry he with ⟨-, rfl⟩ | ⟨f, hf, rfl⟩
    · exact hn.arity
    · have harity := h.arity hf
      exact harity
  case placeholders =>
    intro j e p he hp
    have hold : p.index < g.capacity ∧ ∀ f, g.entry? p = some f → f.node.isParameter := by
      rcases entry he with ⟨-, rfl⟩ | ⟨f, hf, rfl⟩
      · obtain ⟨f, hf, hpar⟩ := hn.placeholders p hp
        refine ⟨index_lt_of_entry hf, fun f' hf' ↦ ?_⟩
        rw [hf] at hf'
        cases hf'
        exact hpar
      · exact h.placeholders hf hp
    refine ⟨by omega, fun f hf ↦ ?_⟩
    rcases entry hf with ⟨rfl, -⟩ | ⟨f₀, hf₀, rfl⟩
    · exact absurd hold.1 (Nat.lt_irrefl _)
    · exact hold.2 f₀ hf₀
  case size_eq =>
    have hids : (g.attach n).ids = (g.push n).ids :=
      ids_congr (by rw [hcap, capacity_push]) fun j ↦ by
        rw [contains_attach hn.edges_live, contains_push]
    rw [hsize, hids, ids_push, List.length_append, h.size_eq]
    rfl

/-! ## Rewiring and replacing -/

/-- Moving one subscription along with the edge behind a port. -/
theorem rewire (h : g.WellFormed) {id : NodeId} {port : Port} {n n' : Node} {former source : Edge}
    (hn : g.node? id = some n) (hf : n.port? port = some former)
    (hn' : n.setPort? source port = some n') (hs : ∀ s ∈ source, g.contains s) :
    (g.rewire id n' former source).WellFormed := by
  obtain ⟨d, hd, rfl⟩ := node?_eq_some_iff.1 hn
  obtain ⟨hplaceholders, hkind⟩ := Node.setPort?_fields hn'
  have hcount := Node.count_edges_setPort? hf hn'
  obtain ⟨hcap, hsize, -⟩ := rewire_fields g id n' former source
  have live (j : NodeId) : (g.rewire id n' former source).contains j = g.contains j :=
    contains_rewire ..
  -- entries keep everything that does not depend on the edges of the rewired node
  have entry {j : NodeId} {e : Entry} (he : entry? (g.rewire id n' former source) j = some e) :
      ∃ f, g.entry? j = some f ∧ e.node = (if id = j then n' else f.node) ∧
        e.dependents = eraseTimes id (former.toList.count j) f.dependents ++
          List.replicate (source.toList.count j) id ∧
        (id = j → f = d) := by
    rw [entry?_rewire] at he
    obtain ⟨f, hf, rfl⟩ := Option.map_eq_some_iff.1 he
    refine ⟨f, hf, rfl, rfl, ?_⟩
    rintro rfl
    rw [hd] at hf
    exact (Option.some.inj hf).symm
  constructor
  case edges_live =>
    intro j e s he hmem
    obtain ⟨f, hf₀, hnode, -, hself⟩ := entry he
    rw [live]
    rw [hnode] at hmem
    split at hmem
    next hj =>
      have hpos : 0 < n'.edges.count s := List.count_pos_iff.2 hmem
      have := hcount s
      by_cases hold : s ∈ d.node.edges
      · exact h.edges_live hd hold
      · have hzero : d.node.edges.count s = 0 := List.count_eq_zero.2 hold
        have hsource : 0 < source.toList.count s := by omega
        exact hs s (Option.mem_toList.1 (List.count_pos_iff.1 hsource))
    · exact h.edges_live hf₀ hmem
  case dependents_live =>
    intro j e c he hc
    obtain ⟨f, hf₀, -, hdep, -⟩ := entry he
    rw [live]
    rw [hdep] at hc
    rcases List.mem_append.1 hc with hc | hc
    · exact h.dependents_live hf₀ (mem_of_mem_eraseTimes hc)
    · rw [List.eq_of_mem_replicate hc]
      exact contains_of_entry hd
  case count_dependents =>
    intro s e c f he hf₀
    obtain ⟨e₀, he₀, -, hdep, -⟩ := entry he
    obtain ⟨f₀, hf₀, hnode, -, hself⟩ := entry hf₀
    have hold := h.count_dependents he₀ hf₀
    rw [hdep, hnode, List.count_append, List.count_replicate]
    by_cases hc : id = c
    · subst hc
      cases hself rfl
      have := hcount s
      have hle : former.toList.count s ≤ d.node.edges.count s := by
        cases former with
        | none => simp
        | some t => exact (List.singleton_sublist.2 (Node.mem_edges_of_port? hf)).count_le s
      rw [count_eraseTimes_self]
      simp only [beq_self_eq_true, if_true]
      omega
    · rw [count_eraseTimes_of_ne (Ne.symm hc), hold]
      simp [hc]
  case arity =>
    intro j e he
    obtain ⟨f, hf₀, hnode, -, hself⟩ := entry he
    rw [hnode]
    split
    next hj =>
      cases hself hj
      exact (Node.arityOk_setPort? hn').2 (h.arity hd)
    · exact h.arity hf₀
  case placeholders =>
    intro j e p he hp
    obtain ⟨f, hf₀, hnode, -, hself⟩ := entry he
    have hp' : p ∈ f.node.placeholders := by
      rw [hnode] at hp
      split at hp
      next hj => cases hself hj; rwa [hplaceholders] at hp
      · exact hp
    obtain ⟨hlt, hpar⟩ := h.placeholders hf₀ hp'
    refine ⟨by rwa [hcap], fun q hq ↦ ?_⟩
    obtain ⟨q₀, hq₀, hnode, -, hself⟩ := entry hq
    rw [hnode]
    split
    next hj => cases hself hj; rw [hkind]; exact hpar d (hj ▸ hd)
    · exact hpar q₀ hq₀
  case size_eq => rw [hsize, h.size_eq, ids_congr hcap live]

/-- Replacing a node by one that reads the same nodes. -/
theorem setNode (h : g.WellFormed) {id : NodeId} {n n' : Node} (hn : g.node? id = some n)
    (hr : n.Replaceable n') : (g.setNode id n').WellFormed := by
  obtain ⟨d, hd, rfl⟩ := node?_eq_some_iff.1 hn
  refine h.of_entries (fun {j e} he ↦ ?_) (contains_modifyEntry g id · _)
    (capacity_modifyEntry ..) (size_modifyEntry ..)
  rw [entry?_setNode] at he
  split at he
  next hj =>
    subst hj
    rw [hd] at he
    cases he
    exact ⟨d, hd, rfl, hr⟩
  · exact ⟨e, he, rfl, .refl _⟩

/-! ## Taking a node out -/

/-- In a well-formed graph the edges that are cleared are all edges to the node that is taken out. -/
theorem entry?_detach (h : g.WellFormed) {id : NodeId} {d : Entry} (hd : g.entry? id = some d)
    (j : NodeId) :
    entry? (g.detach id d) j = if j = id then none else (g.entry? j).map fun f ↦
      { f with
        node := f.node.clear id
        dependents := eraseTimes id (d.node.edges.count j) f.dependents } :=
  Graph.entry?_detach (fun _ _ hf hmem ↦ h.mem_dependents hd hf hmem) j

/-- What is left has been there before. -/
theorem exists_of_entry?_detach (h : g.WellFormed) {id j : NodeId} {d e : Entry}
    (hd : g.entry? id = some d) (he : entry? (g.detach id d) j = some e) :
    j ≠ id ∧ ∃ f, g.entry? j = some f ∧ e = { f with
      node := f.node.clear id
      dependents := eraseTimes id (d.node.edges.count j) f.dependents } := by
  rw [h.entry?_detach hd] at he
  split at he
  · cases he
  next hj =>
    obtain ⟨f, hf, rfl⟩ := Option.map_eq_some_iff.1 he
    exact ⟨hj, f, hf, rfl⟩

/-- Taking a node out together with its subscriptions and all edges to it. -/
theorem detach (h : g.WellFormed) {id : NodeId} {d : Entry} (hd : g.entry? id = some d) :
    (g.detach id d).WellFormed := by
  obtain ⟨hcap, hsize, -⟩ := detach_fields g id d
  have hentry := h.entry?_detach hd
  have entry {j : NodeId} {e : Entry} (he : entry? (g.detach id d) j = some e) :=
    h.exists_of_entry?_detach hd he
  have live {s : NodeId} (hne : s ≠ id) (hs : g.contains s) : (g.detach id d).contains s := by
    obtain ⟨f, hf⟩ := contains_iff.1 hs
    simp [contains_eq, hentry, hne, hf]
  constructor
  case edges_live =>
    intro j e s he hs
    obtain ⟨-, f, hf, rfl⟩ := entry he
    rw [Node.edges_clear, List.mem_filter] at hs
    exact live (by simpa using hs.2) (h.edges_live hf hs.1)
  case dependents_live =>
    intro j e c he hc
    obtain ⟨hj, f, hf, rfl⟩ := entry he
    refine live ?_ (h.dependents_live hf (mem_of_mem_eraseTimes hc))
    -- the removed node itself has given up all of its subscriptions
    rintro rfl
    have hpos := List.count_pos_iff.2 hc
    rw [count_eraseTimes_self, h.count_dependents hf hd] at hpos
    omega
  case count_dependents =>
    intro s e c f he hf
    obtain ⟨hs, e₀, he₀, rfl⟩ := entry he
    obtain ⟨hc, f₀, hf₀, rfl⟩ := entry hf
    rw [count_eraseTimes_of_ne hc, h.count_dependents he₀ hf₀, Node.edges_clear,
      List.count_filter (by simpa using hs)]
  case arity =>
    intro j e he
    obtain ⟨-, f, hf, rfl⟩ := entry he
    exact Node.arityOk_mapEdges.2 (h.arity hf)
  case placeholders =>
    intro j e p he hp
    obtain ⟨-, f, hf, rfl⟩ := entry he
    obtain ⟨hlt, hpar⟩ := h.placeholders hf (by simpa [Node.clear] using hp)
    refine ⟨by rwa [hcap], fun q hq ↦ ?_⟩
    obtain ⟨-, q₀, hq₀, rfl⟩ := entry hq
    simpa [Node.clear] using hpar q₀ hq₀
  case size_eq =>
    have hids : (g.detach id d).ids = (g.entries.erase id).ids := by
      refine NodeMap.ids_congr (by rw [NodeMap.capacity_erase]; exact hcap) fun j ↦ ?_
      have hj := congrArg Option.isSome (hentry j)
      by_cases heq : j = id
      · subst heq
        rw [NodeMap.contains_eq, NodeMap.contains_eq, NodeMap.get?_erase, if_pos rfl]
        rwa [if_pos rfl] at hj
      · rw [if_neg heq, Option.isSome_map] at hj
        rw [NodeMap.contains_eq, NodeMap.contains_eq, NodeMap.get?_erase, if_neg (Ne.symm heq)]
        exact hj
    rw [hsize, h.size_eq, hids, NodeMap.length_ids_erase (contains_of_entry hd)]
    rfl

end WellFormed

end FieldGraph.Graph
