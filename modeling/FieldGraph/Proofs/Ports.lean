import FieldGraph.Graph.Edit
import FieldGraph.Proofs.Node

/-!
# A node through its ports

A node lists its ports, answers which edge is behind a port, takes another edge there, and lists
what it reads.  These views agree: a port that is written differs in its own answer only, and what
is read is what the ports answer, one after another.  The ports and what is not an edge make up the
node, so that a change of all edges may as well be made port by port.
-/

namespace FieldGraph

namespace Node

variable {n n' : Node} {port : Port} {e : Edge}

/-! ## Writing a port -/

/-- Nodes that agree in what is not an edge and behind every port are the same. -/
theorem eq_of_ports {m n : Node} (h : m.unwired = n.unwired)
    (hports : ∀ port, m.port? port = n.port? port) : m = n := by
  cases m with
  | construct slots =>
      cases n with
      | construct slots' => exact congrArg construct (List.ext_getElem? fun i ↦ hports (.slot i))
      | _ => cases h
  | _ =>
      -- A node without slots has no other ports than these, and what is left of it is in `h`.
      have hinput := hports .input
      have hlhs := hports .lhs
      have hrhs := hports .rhs
      have hbody := hports .body
      cases n <;> simp_all [unwired, mapEdges, port?]

/-- One node is another with an edge written to a port: it answers with that edge, and every other
port and all that is not an edge are as they were. -/
structure Rewired (n : Node) (port : Port) (e : Edge) (n' : Node) : Prop where
  written : n'.port? port = some e
  others : ∀ q ≠ port, n'.port? q = n.port? q
  unwired_eq : n'.unwired = n.unwired

theorem Rewired.unique {m : Node} (h : n.Rewired port e n') (h' : n.Rewired port e m) :
    n' = m := by
  refine eq_of_ports (h.unwired_eq.trans h'.unwired_eq.symm) fun q ↦ ?_
  by_cases hq : q = port
  · rw [hq, h.written, h'.written]
  · rw [h.others q hq, h'.others q hq]

/-- A port may be written if and only if it may be read. -/
theorem isSome_setPort? (n : Node) (port : Port) (e : Edge) :
    (n.setPort? e port).isSome = (n.port? port).isSome := by
  cases n with
  | construct slots =>
      cases port with
      | slot i => by_cases hi : i < slots.length <;> simp [setPort?, port?, hi]
      | _ => rfl
  | _ => cases port <;> rfl

/-- Writing a port gives the one node with that edge behind it, if the node has such a port. -/
theorem setPort?_eq_some_iff : n.setPort? e port = some n' ↔ n.Rewired port e n' := by
  have rewired {m : Node} (h : n.setPort? e port = some m) : n.Rewired port e m :=
    ⟨by rw [port?_setPort? h, if_pos rfl], fun q hq ↦ by rw [port?_setPort? h, if_neg hq],
      unwired_setPort? h⟩
  refine ⟨rewired, fun h ↦ ?_⟩
  -- The ports can be told from what is not an edge, so that the port is there before it is written.
  have hport : port ∈ n.ports := by
    rw [← ports_eq_of_unwired h.unwired_eq, mem_ports_iff, h.written]
    rfl
  have hsome : (n.setPort? e port).isSome := by rwa [isSome_setPort?, ← mem_ports_iff]
  obtain ⟨m, hm⟩ := Option.isSome_iff_exists.1 hsome
  rw [hm, (rewired hm).unique h]

/-! ## One edge after another -/

/-- The places in which the edges of a node are looked for: three, filled up with nothing, or the
slots of a vector. -/
def places : Node → List Edge
  | constant _ | parameter .. => [none, none, none]
  | unary _ e | output e => [e, none, none]
  | binary _ l r => [l, r, none]
  | construct slots => slots
  | compositeUnary a b _ => [a, b, none]
  | compositeBinary l r b _ _ => [l, r, b]

/-- The next edge, and the places behind it.  Places that are not wired are passed over. -/
def nextEdge? : List Edge → Option (NodeId × List Edge)
  | [] => none
  | none :: rest => nextEdge? rest
  | some s :: rest => some (s, rest)

/-- What a row of places yields when it is asked for the next edge until there is none. -/
inductive Yields : List Edge → List NodeId → Prop where
  | done {row : List Edge} (h : nextEdge? row = none) : Yields row []
  | step {row rest : List Edge} {s : NodeId} {ids : List NodeId}
      (h : nextEdge? row = some (s, rest)) (hrest : Yields rest ids) : Yields row (s :: ids)

theorem filterMap_eq_of_nextEdge? (row : List Edge) :
    row.filterMap id = match nextEdge? row with
      | none => []
      | some (s, rest) => s :: rest.filterMap id := by
  induction row with
  | nil => rfl
  | cons e rest ih =>
      cases e with
      | none => exact ih
      | some s => rfl

theorem yields_filterMap (row : List Edge) : Yields row (row.filterMap id) := by
  induction row with
  | nil => exact .done rfl
  | cons e rest ih =>
      cases e with
      | some s => exact .step rfl ih
      | none =>
          -- The first request passes over the place, and from then on it is the rest that is asked.
          change Yields (none :: rest) (rest.filterMap id)
          generalize rest.filterMap id = ids at ih
          cases ih with
          | done h => exact .done h
          | step h hrest => exact .step h hrest

theorem yields_iff {row : List Edge} {ids : List NodeId} :
    Yields row ids ↔ ids = row.filterMap id := by
  constructor
  · intro h
    induction h with
    | done h => rw [filterMap_eq_of_nextEdge?, h]
    | step h _ ih => rw [filterMap_eq_of_nextEdge?, h, ih]
  · rintro rfl
    exact yields_filterMap row

theorem filterMap_places (n : Node) : n.places.filterMap id = n.edges := by
  cases n with
  | constant | parameter | construct => rfl
  | unary _ e | output e => cases e <;> rfl
  | binary _ l r | compositeUnary l r => cases l <;> cases r <;> rfl
  | compositeBinary l r b => cases l <;> cases r <;> cases b <;> rfl

/-! ## The views agree -/

/-- The ports of a node are those that can be read, each once, and those that can be written.
Writing one gives the node with that edge behind it and no other difference.  What a node reads
is what is wired to its ports, in their order. -/
theorem ports_exact (n : Node) :
    n.ports.Nodup ∧ (∀ port, port ∈ n.ports ↔ (n.port? port).isSome) ∧
      (∀ port e, port ∈ n.ports ↔ (n.setPort? e port).isSome) ∧
      (∀ port e n', n.setPort? e port = some n' ↔ n.Rewired port e n') ∧
      (n.edges = n.ports.filterMap fun port ↦ (n.port? port).join) ∧
      ∀ ids, Yields n.places ids ↔ ids = n.edges := by
  refine ⟨nodup_ports n, fun port ↦ mem_ports_iff, fun port e ↦ ?_,
    fun port e n' ↦ setPort?_eq_some_iff, edges_eq_filterMap_ports n, fun ids ↦ ?_⟩
  · rw [isSome_setPort?, mem_ports_iff]
  · rw [yields_iff, filterMap_places]

/-! ## Port by port -/

/-- Change the edge behind a port, if the node has that port. -/
def mapPort (f : Edge → Edge) (n : Node) (port : Port) : Node :=
  ((n.port? port).bind fun e ↦ n.setPort? (f e) port).getD n

variable (f : Edge → Edge)

theorem mapPort_of_port?_eq_none (h : n.port? port = none) : n.mapPort f port = n := by
  rw [mapPort, h]
  rfl

theorem rewired_mapPort (h : n.port? port = some e) : n.Rewired port (f e) (n.mapPort f port) := by
  have hsome : (n.setPort? (f e) port).isSome := by rw [isSome_setPort?, h]; rfl
  obtain ⟨n', hn'⟩ := Option.isSome_iff_exists.1 hsome
  have hmap : n.mapPort f port = n' := by rw [mapPort, h, Option.bind_some, hn', Option.getD_some]
  exact hmap ▸ setPort?_eq_some_iff.1 hn'

theorem unwired_mapPort (n : Node) (port : Port) : (n.mapPort f port).unwired = n.unwired := by
  cases h : n.port? port with
  | none => rw [mapPort_of_port?_eq_none f h]
  | some e => exact (rewired_mapPort f h).unwired_eq

theorem port?_mapPort (n : Node) (port q : Port) :
    (n.mapPort f port).port? q = if q = port then (n.port? q).map f else n.port? q := by
  cases h : n.port? port with
  | none =>
      rw [mapPort_of_port?_eq_none f h]
      split
      next hq => rw [hq, h]; rfl
      · rfl
  | some e =>
      split
      next hq => rw [hq, (rewired_mapPort f h).written, h]; rfl
      next hq => exact (rewired_mapPort f h).others q hq

theorem unwired_foldl_mapPort (ports : List Port) (n : Node) :
    (ports.foldl (mapPort f) n).unwired = n.unwired := by
  induction ports generalizing n with
  | nil => rfl
  | cons port ports ih => rw [List.foldl_cons, ih, unwired_mapPort]

/-- A port that is listed once is changed once, and a port that is not listed stays. -/
theorem port?_foldl_mapPort {ports : List Port} (hnodup : ports.Nodup) (n : Node) (q : Port) :
    (ports.foldl (mapPort f) n).port? q = if q ∈ ports then (n.port? q).map f else n.port? q := by
  induction ports generalizing n with
  | nil => rfl
  | cons port ports ih =>
      obtain ⟨hport, hnodup⟩ := List.nodup_cons.1 hnodup
      rw [List.foldl_cons, ih hnodup, port?_mapPort]
      by_cases hq : q = port
      · simp [hq, hport]
      · simp [hq]

/-- Going through the ports changes every edge. -/
theorem foldl_mapPort_ports (n : Node) : n.ports.foldl (mapPort f) n = n.mapEdges f := by
  have hunwired : (n.mapEdges f).unwired = n.unwired := mapEdges_mapEdges ..
  refine eq_of_ports ((unwired_foldl_mapPort f _ n).trans hunwired.symm) fun q ↦ ?_
  rw [port?_foldl_mapPort f (nodup_ports n), port?_mapEdges, ite_eq_left_iff, mem_ports_iff]
  intro hq
  rw [Option.not_isSome_iff_eq_none.1 hq]
  rfl

end Node

/-- A consumer is unwired port by port. -/
theorem Graph.clearEdgesTo_eq_foldl_ports (g : Graph) (id consumer : NodeId) :
    g.clearEdgesTo id consumer = g.modifyEntry consumer fun entry ↦
      { entry with
        node := entry.node.ports.foldl (Node.mapPort fun e ↦ if e = some id then none else e)
          entry.node } := by
  simp only [Node.foldl_mapPort_ports]
  rfl

end FieldGraph
