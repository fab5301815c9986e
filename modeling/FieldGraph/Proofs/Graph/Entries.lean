import FieldGraph.Graph.Copy
import Mathlib.Data.List.Nodup
import Mathlib.Data.List.Pairwise

/-!
# Entries of a graph

What a change to the arena does to the look-ups of single entries.  Everything else about graphs is
derived from these equations, so that no later proof opens the arena itself.
-/

namespace FieldGraph

theorem length_erase_lt {l : List NodeId} {id : NodeId} (h : id ∈ l) :
    (l.erase id).length < l.length := by
  rw [List.length_erase_of_mem h]
  exact Nat.sub_lt (List.length_pos_of_mem h) Nat.one_pos

/-- What holds of the nodes that may be opened, if it holds once any one of them has been. -/
theorem erase_induction {motive : List NodeId → Prop}
    (step : ∀ l, (∀ id ∈ l, motive (l.erase id)) → motive l) (l : List NodeId) : motive l := by
  induction hk : l.length using Nat.strongRecOn generalizing l with
  | ind k ih =>
      subst hk
      exact step l fun id hid ↦ ih _ (length_erase_lt hid) _ rfl

namespace NodeMap

variable {α : Type}

@[simp] theorem capacity_modify (m : NodeMap α) (i : NodeId) (f : α → α) :
    (m.modify i f).capacity = m.capacity := by simp [modify, capacity]

@[simp] theorem capacity_erase (m : NodeMap α) (i : NodeId) :
    (m.erase i).capacity = m.capacity := by simp [erase, capacity]

@[simp] theorem capacity_push (m : NodeMap α) (a : α) :
    (m.push a).capacity = m.capacity + 1 := by simp [push, capacity]

theorem contains_insert_iff {m : NodeMap α} {i j : NodeId} {a : α} :
    (m.insert i a).contains j ↔ j = i ∨ m.contains j := by
  rw [contains_eq, get?_insert]
  by_cases h : i = j
  · simp [h]
  · simp [h, Ne.symm h, contains_eq]

/-- The nodes with an entry depend only on which positions are filled. -/
theorem ids_congr {β : Type} {m : NodeMap α} {m' : NodeMap β} (hc : m'.capacity = m.capacity)
    (h : ∀ id, m'.contains id = m.contains id) : m'.ids = m.ids := by
  rw [ids, ids, hc]
  exact List.filter_congr fun id _ ↦ h id

theorem ids_push (m : NodeMap α) (a : α) : (m.push a).ids = m.ids ++ [⟨m.capacity⟩] := by
  have hold : ∀ id ∈ (List.range m.capacity).map NodeId.mk,
      (m.push a).contains id = m.contains id := by
    intro id hid
    obtain ⟨k, hk, rfl⟩ := List.mem_map.1 hid
    have hne : k ≠ m.capacity := Nat.ne_of_lt (List.mem_range.1 hk)
    simp [contains_eq, hne]
  simp only [ids, capacity_push, List.range_succ, List.map_append, List.filter_append,
    List.filter_congr hold]
  simp [contains_eq]

/-- The entries are those of the nodes that have one. -/
theorem values_eq (m : NodeMap α) : m.values = m.ids.filterMap m.get? := by
  have hslots : m.slots.toList = (List.range m.capacity).map fun k ↦ m.get? ⟨k⟩ := by
    apply List.ext_getElem
    · simp [capacity]
    · intro k hk _
      have hk' : k < m.slots.size := by simpa using hk
      simp [get?, hk']
  have hids :
      m.ids.filterMap m.get? = ((List.range m.capacity).map NodeId.mk).filterMap m.get? := by
    rw [ids, List.filterMap_filter]
    congr 1
    funext id
    cases h : m.get? id <;> simp [contains_eq, h]
  rw [hids, values, hslots, List.filterMap_map, List.filterMap_map]
  rfl

theorem length_ids_erase {m : NodeMap α} {id : NodeId} (h : m.contains id) :
    (m.erase id).ids.length = m.ids.length - 1 := by
  have heq : (m.erase id).ids = m.ids.erase id := by
    rw [List.Nodup.erase_eq_filter m.nodup_ids, ids, ids, List.filter_filter, capacity_erase]
    apply List.filter_congr
    intro j _
    by_cases hj : id = j
    · subst hj; simp [contains_eq]
    · simp [contains_eq, hj, Ne.symm hj]
  rw [heq, List.length_erase_of_mem (mem_ids.2 h)]

end NodeMap

namespace Graph

variable {g : Graph}

/-! ## Looking up -/

theorem contains_eq (g : Graph) (id : NodeId) : g.contains id = (g.entry? id).isSome := rfl

theorem contains_iff {id : NodeId} : g.contains id ↔ ∃ e, g.entry? id = some e :=
  Option.isSome_iff_exists

theorem contains_of_entry {id : NodeId} {e : Entry} (h : g.entry? id = some e) : g.contains id :=
  contains_iff.2 ⟨e, h⟩

theorem node?_eq_some_iff {id : NodeId} {n : Node} :
    g.node? id = some n ↔ ∃ e, g.entry? id = some e ∧ e.node = n :=
  Option.map_eq_some_iff

theorem node?_of_entry {id : NodeId} {e : Entry} (h : g.entry? id = some e) :
    g.node? id = some e.node := by rw [node?, h]; rfl

theorem type?_of_entry {id : NodeId} {e : Entry} (h : g.entry? id = some e) :
    g.type? id = some e.type := by rw [type?, h]; rfl

theorem type?_eq_some_iff {id : NodeId} {t : ValueType} :
    g.type? id = some t ↔ ∃ e, g.entry? id = some e ∧ e.type = t :=
  Option.map_eq_some_iff

theorem edges_of_node? {id : NodeId} {n : Node} (h : g.node? id = some n) :
    g.edges id = n.edges := by rw [edges, h]; rfl

/-- Whatever reads something is live. -/
theorem exists_node_of_mem_edges {id s : NodeId} (h : s ∈ g.edges id) :
    ∃ n, g.node? id = some n ∧ s ∈ n.edges := by
  cases hn : g.node? id with
  | none => simp [edges, hn] at h
  | some n => exact ⟨n, rfl, by rwa [edges_of_node? hn] at h⟩

theorem dependents_of_entry {id : NodeId} {e : Entry} (h : g.entry? id = some e) :
    g.dependents id = e.dependents := by rw [dependents, h]; rfl

theorem mem_ids {id : NodeId} : id ∈ g.ids ↔ g.contains id := NodeMap.mem_ids

theorem ids_congr {g' : Graph} (hc : g'.capacity = g.capacity)
    (h : ∀ id, g'.contains id = g.contains id) : g'.ids = g.ids := NodeMap.ids_congr hc h

/-- Live nodes have positions below the next one. -/
theorem index_lt_of_entry {id : NodeId} {e : Entry} (h : g.entry? id = some e) :
    id.index < g.capacity := NodeMap.index_lt_of_get? h

theorem entry?_nextId (g : Graph) : g.entry? g.nextId = none := by
  cases h : g.entry? g.nextId with
  | none => rfl
  | some e => exact absurd (index_lt_of_entry h) (Nat.lt_irrefl _)

theorem ne_nextId_of_contains {id : NodeId} (h : g.contains id) : id ≠ g.nextId := by
  rintro rfl
  simp [contains_eq, entry?_nextId] at h

theorem mem_values {e : Entry} : e ∈ g.entries.values ↔ ∃ id, g.entry? id = some e := by
  simp only [NodeMap.values, List.mem_filterMap, id_eq, exists_eq_right, entry?, NodeMap.get?,
    Array.mem_toList_iff, Array.mem_iff_getElem?]
  constructor
  · rintro ⟨k, hk⟩
    exact ⟨⟨k⟩, by simp [hk]⟩
  · rintro ⟨id, hid⟩
    exact ⟨id.index, Option.join_eq_some_iff.1 hid⟩

/-- The placeholders of a graph are those of its live nodes. -/
theorem mem_placeholders {p : NodeId} :
    p ∈ g.placeholders ↔ ∃ id n, g.node? id = some n ∧ p ∈ n.placeholders := by
  simp only [placeholders, List.mem_flatMap, mem_values]
  constructor
  · rintro ⟨e, ⟨id, he⟩, hp⟩
    exact ⟨id, e.node, node?_of_entry he, hp⟩
  · rintro ⟨id, n, hn, hp⟩
    obtain ⟨e, he, rfl⟩ := node?_eq_some_iff.1 hn
    exact ⟨e, ⟨id, he⟩, hp⟩

theorem placeholders_eq (g : Graph) :
    g.placeholders = g.ids.flatMap fun id ↦ ((g.node? id).map Node.placeholders).getD [] := by
  rw [placeholders, NodeMap.values_eq, List.flatMap_def, List.map_filterMap, List.flatMap_def,
    ids]
  induction g.entries.ids with
  | nil => rfl
  | cons id ids ih =>
      rw [List.filterMap_cons, List.map_cons, List.flatten_cons, ← ih, node?, entry?]
      cases g.entries.get? id <;> rfl

/-- Where no placeholder is listed twice, none belongs to two nodes. -/
theorem eq_of_mem_placeholders (h : g.placeholders.Nodup) {id id' p : NodeId} {n n' : Node}
    (hn : g.node? id = some n) (hn' : g.node? id' = some n') (hp : p ∈ n.placeholders)
    (hp' : p ∈ n'.placeholders) : id = id' := by
  have mem {id : NodeId} {n : Node} (hn : g.node? id = some n) : id ∈ g.ids := by
    obtain ⟨e, he, -⟩ := node?_eq_some_iff.1 hn
    exact mem_ids.2 (contains_of_entry he)
  rw [placeholders_eq, List.nodup_flatMap] at h
  by_contra hne
  have : Std.Symm (Function.onFun List.Disjoint fun id ↦
      ((g.node? id).map Node.placeholders).getD []) := ⟨fun _ _ hd _ hp hq ↦ hd hq hp⟩
  have hd := h.2.forall (mem hn) (mem hn') hne
  simp only [Function.onFun, hn, hn', Option.map_some, Option.getD_some] at hd
  exact hd hp hp'

theorem nodup_placeholders (h : g.placeholders.Nodup) {id : NodeId} {n : Node}
    (hn : g.node? id = some n) : n.placeholders.Nodup := by
  obtain ⟨e, he, -⟩ := node?_eq_some_iff.1 hn
  rw [placeholders_eq, List.nodup_flatMap] at h
  have := h.1 id (mem_ids.2 (contains_of_entry he))
  rwa [hn] at this

/-! ## Changing entries -/

@[simp] theorem entry?_empty (id : NodeId) : empty.entry? id = none := rfl

@[simp] theorem entry?_modifyEntry (g : Graph) (i j : NodeId) (f : Entry → Entry) :
    entry? (g.modifyEntry i f) j = if i = j then (g.entry? j).map f else g.entry? j :=
  NodeMap.get?_modify g.entries i j f

@[simp] theorem capacity_modifyEntry (g : Graph) (i : NodeId) (f : Entry → Entry) :
    (g.modifyEntry i f).capacity = g.capacity := NodeMap.capacity_modify g.entries i f

@[simp] theorem size_modifyEntry (g : Graph) (i : NodeId) (f : Entry → Entry) :
    (g.modifyEntry i f).size = g.size := rfl

@[simp] theorem settled_modifyEntry (g : Graph) (i : NodeId) (f : Entry → Entry) :
    (g.modifyEntry i f).settled = g.settled := rfl

@[simp] theorem contains_modifyEntry (g : Graph) (i j : NodeId) (f : Entry → Entry) :
    (g.modifyEntry i f).contains j = g.contains j := by
  rw [contains_eq, contains_eq, entry?_modifyEntry]
  split <;> simp

theorem entry?_setNode (g : Graph) (i j : NodeId) (n : Node) :
    entry? (g.setNode i n) j =
      if i = j then (g.entry? j).map (fun e ↦ { e with node := n }) else g.entry? j :=
  entry?_modifyEntry ..

theorem entry?_setType (g : Graph) (i j : NodeId) (t : ValueType) :
    entry? (g.setType i t) j =
      if i = j then (g.entry? j).map (fun e ↦ { e with type := t }) else g.entry? j :=
  entry?_modifyEntry ..

theorem entry?_push (g : Graph) (n : Node) (j : NodeId) :
    entry? (g.push n) j = if j = g.nextId then some ⟨n, .none, []⟩ else g.entry? j := by
  have heq : j = g.nextId ↔ j.index = g.entries.capacity :=
    ⟨fun h ↦ h ▸ rfl, fun h ↦ congrArg NodeId.mk h⟩
  by_cases h : j = g.nextId
  · rw [if_pos h]
    exact (NodeMap.get?_push g.entries _ j).trans (if_pos (heq.1 h))
  · rw [if_neg h]
    exact (NodeMap.get?_push g.entries _ j).trans (if_neg fun h' ↦ h (heq.2 h'))

@[simp] theorem capacity_push (g : Graph) (n : Node) : (g.push n).capacity = g.capacity + 1 :=
  NodeMap.capacity_push ..

@[simp] theorem settled_push (g : Graph) (n : Node) : (g.push n).settled = g.settled := rfl

theorem contains_push (g : Graph) (n : Node) (j : NodeId) :
    (g.push n).contains j = (decide (j = g.nextId) || g.contains j) := by
  rw [contains_eq, contains_eq, entry?_push]
  split <;> simp [*]

theorem ids_push (g : Graph) (n : Node) : (g.push n).ids = g.ids ++ [g.nextId] :=
  NodeMap.ids_push ..

/-- Subscribing to a list of sources notes the consumer once for each occurrence. -/
theorem entry?_subscribeAll (c : NodeId) (sources : List NodeId) (g : Graph) (j : NodeId) :
    entry? (sources.foldl (fun g s ↦ g.subscribe c s) g) j = (g.entry? j).map fun e ↦
      { e with dependents := e.dependents ++ List.replicate (sources.count j) c } := by
  induction sources generalizing g with
  | nil => cases h : g.entry? j <;> simp [h]
  | cons s sources ih =>
      rw [List.foldl_cons, ih, subscribe, entry?_modifyEntry, List.count_cons]
      cases g.entry? j with
      | none => simp
      | some e =>
          by_cases h : s = j
          · simp [h, List.replicate_succ]
          · simp [h]

/-- The consumers left when a consumer gives up `k` of its edges. -/
def eraseTimes (c : NodeId) : Nat → List NodeId → List NodeId
  | 0, l => l
  | k + 1, l => eraseTimes c k (l.erase c)

theorem count_eraseTimes_self (c : NodeId) (k : Nat) (l : List NodeId) :
    (eraseTimes c k l).count c = l.count c - k := by
  induction k generalizing l with
  | zero => rfl
  | succ k ih => rw [eraseTimes, ih, List.count_erase_self]; omega

theorem count_eraseTimes_of_ne {c d : NodeId} (h : d ≠ c) (k : Nat) (l : List NodeId) :
    (eraseTimes c k l).count d = l.count d := by
  induction k generalizing l with
  | zero => rfl
  | succ k ih => rw [eraseTimes, ih, List.count_erase_of_ne h]

theorem mem_of_mem_eraseTimes {c d : NodeId} {k : Nat} {l : List NodeId}
    (h : d ∈ eraseTimes c k l) : d ∈ l := by
  induction k generalizing l with
  | zero => exact h
  | succ k ih => exact List.mem_of_mem_erase (ih h)

/-- Giving up a list of sources forgets the consumer once for each occurrence. -/
theorem entry?_unsubscribeAll (c : NodeId) (sources : List NodeId) (g : Graph) (j : NodeId) :
    entry? (sources.foldl (fun g s ↦ g.unsubscribe c s) g) j = (g.entry? j).map fun e ↦
      { e with dependents := eraseTimes c (sources.count j) e.dependents } := by
  induction sources generalizing g with
  | nil => cases h : g.entry? j <;> simp [h, eraseTimes]
  | cons s sources ih =>
      rw [List.foldl_cons, ih, unsubscribe, entry?_modifyEntry, List.count_cons]
      cases g.entry? j with
      | none => simp
      | some e =>
          by_cases h : s = j
          · simp [h, eraseTimes]
          · simp [h]

/-- Changing entries one after another changes nothing but those entries. -/
theorem foldl_modifyEntry_fields (ids : List NodeId) (f : NodeId → Entry → Entry) (g : Graph) :
    let g' := ids.foldl (fun g i ↦ g.modifyEntry i (f i)) g
    g'.capacity = g.capacity ∧ g'.size = g.size ∧ g'.settled = g.settled := by
  induction ids generalizing g with
  | nil => exact ⟨rfl, rfl, rfl⟩
  | cons i ids ih =>
      obtain ⟨hc, hs, ht⟩ := ih (g.modifyEntry i (f i))
      exact ⟨hc.trans (by simp), hs.trans (by simp), ht.trans (by simp)⟩

end Graph

end FieldGraph
