import FieldGraph.Node

/-!
# Nodes and their edges

The outline of a node is all of it that bringing types up to date leaves alone.  Rewiring a port and
clearing the edges to a node change the multiset of edges in the way their names say.
-/

namespace FieldGraph

namespace Node

/-- A node without the type it declares. -/
def outline : Node → Node
  | parameter i _ => parameter i .none
  | n => n

def isParameter : Node → Bool
  | parameter .. => true
  | _ => false

theorem exists_parameter_of_isParameter {n : Node} (h : n.isParameter) :
    ∃ index t, n = parameter index t := by
  cases n with
  | parameter index t => exact ⟨index, t, rfl⟩
  | _ => cases h

/-- A node that reads something is not a parameter. -/
theorem isParameter_of_mem_edges {n : Node} {s : NodeId} (h : s ∈ n.edges) :
    n.isParameter = false := by
  cases n with
  | parameter => cases h
  | _ => rfl

theorem edges_outline (n : Node) : n.outline.edges = n.edges := by cases n <;> rfl

theorem arguments_outline (n : Node) : n.outline.arguments = n.arguments := by cases n <;> rfl

theorem placeholders_outline (n : Node) : n.outline.placeholders = n.placeholders := by
  cases n <;> rfl

theorem isParameter_outline (n : Node) : n.outline.isParameter = n.isParameter := by
  cases n <;> rfl

/-- Only parameters differ from their outline. -/
theorem eq_of_outline {m n : Node} (h : m.outline = n.outline) (hn : n.isParameter = false) :
    m = n := by
  cases n with
  | parameter => cases hn
  | _ =>
      cases m <;> cases h
      rfl

/-- Only composites own placeholders. -/
theorem placeholders_of_not_composite {n : Node} (h : n.isComposite = false) :
    n.placeholders = [] := by cases n <;> first | rfl | cases h

section OfOutline

variable {m n : Node} (h : m.outline = n.outline)
include h

theorem edges_eq_of_outline : m.edges = n.edges := by
  rw [← edges_outline m, h, edges_outline]

theorem arguments_eq_of_outline : m.arguments = n.arguments := by
  rw [← arguments_outline m, h, arguments_outline]

theorem placeholders_eq_of_outline : m.placeholders = n.placeholders := by
  rw [← placeholders_outline m, h, placeholders_outline]

theorem isParameter_eq_of_outline : m.isParameter = n.isParameter := by
  rw [← isParameter_outline m, h, isParameter_outline]

end OfOutline

/-! ## Rewiring -/

/-- A vector has two to four slots. -/
def ArityOk : Node → Prop
  | construct slots => 2 ≤ slots.length ∧ slots.length ≤ 4
  | _ => True

theorem arityOk_outline {n : Node} : n.outline.ArityOk ↔ n.ArityOk := by cases n <;> rfl

theorem arityOk_mapEdges {n : Node} {f : Edge → Edge} : (n.mapEdges f).ArityOk ↔ n.ArityOk := by
  cases n <;> simp [mapEdges, ArityOk]

/-- A node of the same kind that reads the same nodes and owns the same placeholders. -/
structure Replaceable (n n' : Node) : Prop where
  edges_eq : n'.edges = n.edges
  placeholders_eq : n'.placeholders = n.placeholders
  isParameter_eq : n'.isParameter = n.isParameter
  arity : n.ArityOk → n'.ArityOk

theorem Replaceable.refl (n : Node) : n.Replaceable n := ⟨rfl, rfl, rfl, fun h ↦ h⟩

/-- A node of one outline with another may stand in its place. -/
theorem Replaceable.of_outline {m n : Node} (h : m.outline = n.outline) : n.Replaceable m where
  edges_eq := edges_eq_of_outline h
  placeholders_eq := placeholders_eq_of_outline h
  isParameter_eq := isParameter_eq_of_outline h
  arity harity := by rwa [← arityOk_outline, h, arityOk_outline]

@[simp] theorem placeholders_mapEdges (f : Edge → Edge) (n : Node) :
    (n.mapEdges f).placeholders = n.placeholders := by cases n <;> rfl

@[simp] theorem isParameter_mapEdges (f : Edge → Edge) (n : Node) :
    (n.mapEdges f).isParameter = n.isParameter := by cases n <;> rfl

@[simp] theorem isComposite_mapEdges (f : Edge → Edge) (n : Node) :
    (n.mapEdges f).isComposite = n.isComposite := by cases n <;> rfl

/-- A node with nothing wired: all of it that is not an edge. -/
def unwired (n : Node) : Node := n.mapEdges fun _ ↦ none

theorem ports_unwired (n : Node) : n.unwired.ports = n.ports := by
  cases n <;> simp [unwired, mapEdges, ports]

section OfUnwired

variable {m n : Node} (h : m.unwired = n.unwired)
include h

theorem ports_eq_of_unwired : m.ports = n.ports := by
  rw [← ports_unwired m, h, ports_unwired]

theorem placeholders_eq_of_unwired : m.placeholders = n.placeholders :=
  calc m.placeholders = m.unwired.placeholders := (placeholders_mapEdges ..).symm
    _ = n.unwired.placeholders := by rw [h]
    _ = n.placeholders := placeholders_mapEdges ..

theorem isParameter_eq_of_unwired : m.isParameter = n.isParameter :=
  calc m.isParameter = m.unwired.isParameter := (isParameter_mapEdges ..).symm
    _ = n.unwired.isParameter := by rw [h]
    _ = n.isParameter := isParameter_mapEdges ..

theorem arityOk_iff_of_unwired : m.ArityOk ↔ n.ArityOk :=
  calc m.ArityOk ↔ m.unwired.ArityOk := arityOk_mapEdges.symm
    _ ↔ n.unwired.ArityOk := by rw [h]
    _ ↔ n.ArityOk := arityOk_mapEdges

end OfUnwired

section OfSetPort

variable {n n' : Node} {e : Edge} {port : Port} (h : n.setPort? e port = some n')
include h

/-- Rewiring a port changes nothing that is not an edge. -/
theorem unwired_setPort? : n'.unwired = n.unwired := by
  cases n with
  | construct slots =>
      cases port with
      | slot i =>
          obtain ⟨-, rfl⟩ : i < slots.length ∧ construct (slots.set i e) = n' := by
            simpa [setPort?] using h
          simp [unwired, mapEdges, List.map_const']
      | _ => cases h
  | _ => cases port <;> cases h <;> rfl

/-- A port that has been rewired answers with its new edge, and every other port as before. -/
theorem port?_setPort? (q : Port) : n'.port? q = if q = port then some e else n.port? q := by
  cases n with
  | construct slots =>
      cases port with
      | slot i =>
          obtain ⟨hi, rfl⟩ : i < slots.length ∧ construct (slots.set i e) = n' := by
            simpa [setPort?] using h
          cases q with
          | slot j =>
              by_cases hj : j = i
              · simp [port?, hj, hi]
              · simp [port?, hj, Ne.symm hj]
          | _ => rfl
      | _ => cases h
  | _ => cases port <;> cases h <;> cases q <;> rfl

theorem arityOk_setPort? : n'.ArityOk ↔ n.ArityOk := arityOk_iff_of_unwired (unwired_setPort? h)

/-- Rewiring a port keeps the placeholders and the kind. -/
theorem setPort?_fields :
    n'.placeholders = n.placeholders ∧ n'.isParameter = n.isParameter :=
  ⟨placeholders_eq_of_unwired (unwired_setPort? h), isParameter_eq_of_unwired (unwired_setPort? h)⟩

end OfSetPort

/-- The ports of a node are those behind which there is an edge. -/
theorem mem_ports_iff {n : Node} {port : Port} : port ∈ n.ports ↔ (n.port? port).isSome := by
  cases n with
  | construct slots => cases port <;> simp [ports, port?]
  | _ => cases port <;> simp [ports, port?]

/-- The ports of a node differ from each other, so that counting them counts ports once. -/
theorem nodup_ports (n : Node) : n.ports.Nodup := by
  cases n with
  | construct slots =>
      exact List.pairwise_map.2 (List.nodup_range.imp fun hne h ↦ hne (Port.slot.inj h))
  | _ => simp [ports]

/-- The edges are what is wired to the ports, in order. -/
theorem edges_eq_filterMap_ports (n : Node) :
    n.edges = n.ports.filterMap fun port ↦ (n.port? port).join := by
  have edge (e : Edge) : e.toList = [some e].filterMap Option.join := by cases e <;> rfl
  cases n with
  | constant | parameter => rfl
  | construct slots =>
      have hslots : slots.map some = (List.range slots.length).map fun i ↦ slots[i]? := by
        refine List.ext_getElem (by simp) fun i hi _ ↦ ?_
        rw [List.getElem_map, List.getElem_map, List.getElem_range, List.getElem?_eq_getElem]
      rw [edges, ports, List.filterMap_map]
      calc slots.filterMap id = (slots.map some).filterMap Option.join := by
            rw [List.filterMap_map]
            rfl
        _ = (List.range slots.length).filterMap fun i ↦ (slots[i]?).join := by
            rw [hslots, List.filterMap_map]
            rfl
  | unary op e | output e => exact edge e
  | binary _ l r | compositeUnary l r =>
      rw [edges, edge l, edge r, ← List.filterMap_append]
      rfl
  | compositeBinary l r b =>
      rw [edges, edge l, edge r, edge b, ← List.filterMap_append, ← List.filterMap_append]
      rfl

/-- A source is among the edges once for each port that it is wired to. -/
theorem count_edges (n : Node) (s : NodeId) :
    n.edges.count s = n.ports.countP fun port ↦ n.port? port = some (some s) := by
  rw [edges_eq_filterMap_ports, List.count_filterMap]
  refine List.countP_congr fun port _ ↦ ?_
  simp [Option.join_eq_some_iff]

/-- What is read is wired to a port. -/
theorem mem_edges_iff {n : Node} {s : NodeId} :
    s ∈ n.edges ↔ ∃ port, n.port? port = some (some s) := by
  rw [edges_eq_filterMap_ports, List.mem_filterMap]
  constructor
  · rintro ⟨port, -, h⟩
    exact ⟨port, Option.join_eq_some_iff.1 h⟩
  · rintro ⟨port, h⟩
    exact ⟨port, mem_ports_iff.2 (by rw [h]; rfl), Option.join_eq_some_iff.2 h⟩

theorem mem_edges_of_port? {n : Node} {port : Port} {s : NodeId}
    (h : n.port? port = some (some s)) : s ∈ n.edges := mem_edges_iff.2 ⟨port, h⟩

theorem exists_port?_of_mem_edges {n : Node} {s : NodeId} (h : s ∈ n.edges) :
    ∃ port, n.port? port = some (some s) := mem_edges_iff.1 h

theorem isComposite_of_body? {n : Node} {body : NodeId} (h : n.body?.join = some body) :
    n.isComposite := by
  cases n <;> first | rfl | cases h

theorem isParameter_of_isComposite {n : Node} (h : n.isComposite) : n.isParameter = false := by
  cases n <;> first | rfl | cases h

theorem exists_body?_of_isComposite {n : Node} (h : n.isComposite) : ∃ e, n.body? = some e := by
  cases n <;> first | exact ⟨_, rfl⟩ | cases h

theorem operands_of_not_composite {n : Node} (h : n.isComposite = false) :
    n.operands = n.edges := by
  cases n <;> first | rfl | cases h

/-- Nodes are read for their values, or as a body. -/
theorem edges_eq_operands_append (n : Node) : n.edges = n.operands ++ n.body?.join.toList := by
  cases n <;> simp [edges, operands, body?, port?]

theorem mem_edges_of_mem_operands {n : Node} {s : NodeId} (h : s ∈ n.operands) :
    s ∈ n.edges := by
  rw [edges_eq_operands_append]
  exact List.mem_append_left _ h

/-- The edges of a node that are read for their values, wired or not. -/
def sources : Node → List Edge
  | constant _ | parameter .. => []
  | unary _ e | output e => [e]
  | binary _ l r => [l, r]
  | construct slots => slots
  | compositeUnary a _ _ => [a]
  | compositeBinary l r _ _ _ => [l, r]

theorem operands_eq_filterMap_sources (n : Node) : n.operands = n.sources.filterMap id := by
  cases n with
  | constant | parameter | construct => rfl
  | unary _ e | output e | compositeUnary e => cases e <;> rfl
  | binary _ l r | compositeBinary l r => cases l <;> cases r <;> rfl

theorem mem_operands_iff {n : Node} {s : NodeId} : s ∈ n.operands ↔ some s ∈ n.sources := by
  simp [operands_eq_filterMap_sources]

/-- All ports but the body of a composite are read for their values. -/
theorem mem_sources_of_port? {n : Node} {port : Port} {e : Edge} (h : n.port? port = some e)
    (hc : n.isComposite = false) : e ∈ n.sources := by
  cases n with
  | construct slots =>
      cases port with
      | slot i => exact List.mem_of_getElem? h
      | _ => cases h
  | compositeUnary | compositeBinary => cases hc
  | _ => cases port <;> cases h <;> simp [sources]

theorem arguments_eq_zip (n : Node) : n.arguments = n.placeholders.zip n.sources := by
  cases n <;> rfl

theorem length_sources_of_isComposite {n : Node} (h : n.isComposite) :
    n.sources.length = n.placeholders.length := by cases n <;> first | rfl | cases h

/-- A composite reads its arguments for their values. -/
theorem arguments_map_snd {n : Node} (h : n.isComposite) :
    n.arguments.map Prod.snd = n.sources := by
  rw [arguments_eq_zip, List.map_snd_zip]
  exact Nat.le_of_eq (length_sources_of_isComposite h)

theorem sources_mapEdges (f : Edge → Edge) (n : Node) :
    (n.mapEdges f).sources = n.sources.map f := by cases n <;> rfl

/-- What is wired to an argument is read for its value. -/
theorem mem_operands_of_mem_arguments {n : Node} {a : NodeId × Edge} {s : NodeId}
    (h : a ∈ n.arguments) (hs : a.2 = some s) : s ∈ n.operands := by
  cases n with
  | compositeUnary | compositeBinary =>
      simp only [arguments, List.mem_cons, List.not_mem_nil, or_false] at h
      simp only [operands, List.mem_append, Option.mem_toList]
      grind
  | _ => cases h

theorem mem_edges_of_mem_arguments {n : Node} {a : NodeId × Edge} {s : NodeId}
    (h : a ∈ n.arguments) (hs : a.2 = some s) : s ∈ n.edges :=
  mem_edges_of_mem_operands (mem_operands_of_mem_arguments h hs)

/-- Rewiring a port takes the former source off the edges and puts the new one on. -/
theorem count_edges_setPort? {n n' : Node} {e former : Edge} {port : Port}
    (hf : n.port? port = some former) (h : n.setPort? e port = some n') (s : NodeId) :
    n'.edges.count s + former.toList.count s = n.edges.count s + e.toList.count s := by
  have hport : port ∈ n.ports := mem_ports_iff.2 (Option.isSome_of_eq_some hf)
  have hsplit {m : Node} {edge : Edge} (hm : m.ports = n.ports) (hedge : m.port? port = some edge) :
      m.edges.count s =
        ((n.ports.erase port).countP fun q ↦ m.port? q = some (some s)) + edge.toList.count s := by
    rw [count_edges, hm, (List.perm_cons_erase hport).countP_eq, List.countP_cons, hedge]
    cases edge <;> simp [List.count_singleton]
  have hrest : ((n.ports.erase port).countP fun q ↦ n'.port? q = some (some s)) =
      (n.ports.erase port).countP fun q ↦ n.port? q = some (some s) := by
    refine List.countP_congr fun q hq ↦ ?_
    rw [port?_setPort? h, if_neg ((nodup_ports n).mem_erase_iff.1 hq).1]
  have hnew : n'.port? port = some e := by rw [port?_setPort? h, if_pos rfl]
  rw [hsplit (ports_eq_of_unwired (unwired_setPort? h)) hnew, hsplit rfl hf, hrest]
  omega

/-- Only the nodes that are read tell one way to change the edges from another. -/
theorem mapEdges_congr {n : Node} {f f' : Edge → Edge} (hnone : f none = f' none)
    (h : ∀ s ∈ n.edges, f (some s) = f' (some s)) : n.mapEdges f = n.mapEdges f' := by
  have edge {e : Edge} (he : ∀ s ∈ e.toList, f (some s) = f' (some s)) : f e = f' e := by
    cases e with
    | none => exact hnone
    | some s => exact he s List.mem_cons_self
  cases n with
  | construct slots =>
      refine congrArg construct (List.map_congr_left fun e he ↦ edge fun s hs ↦ h s ?_)
      exact List.mem_filterMap.2 ⟨e, he, Option.mem_toList.1 hs⟩
  | constant | parameter => rfl
  | unary | output => exact congrArg _ (edge h)
  | binary | compositeUnary | compositeBinary =>
      simp only [edges, List.mem_append] at h
      simp only [mapEdges]
      grind

theorem mapEdges_eq_self {n : Node} {f : Edge → Edge} (hnone : f none = none)
    (h : ∀ s ∈ n.edges, f (some s) = some s) : n.mapEdges f = n := by
  have hid : n.mapEdges (fun e ↦ e) = n := by cases n <;> simp [mapEdges]
  exact (mapEdges_congr hnone h).trans hid

theorem mapEdges_mapEdges (f f' : Edge → Edge) (n : Node) :
    (n.mapEdges f).mapEdges f' = n.mapEdges fun e ↦ f' (f e) := by
  cases n <;> simp [mapEdges, Function.comp_def]

theorem outline_mapEdges (f : Edge → Edge) (n : Node) :
    (n.mapEdges f).outline = n.outline.mapEdges f := by cases n <;> rfl

theorem port?_mapEdges (f : Edge → Edge) (n : Node) (port : Port) :
    (n.mapEdges f).port? port = (n.port? port).map f := by
  cases n <;> cases port <;> simp [mapEdges, port?]

theorem port?_outline (n : Node) (port : Port) : n.outline.port? port = n.port? port := by
  cases n <;> rfl

/-- Every edge of a node with changed edges comes from an edge. -/
theorem mem_edges_mapEdges {n : Node} {f : Edge → Edge} {s : NodeId}
    (h : s ∈ (n.mapEdges f).edges) (hf : f none = none) :
    ∃ t ∈ n.edges, f (some t) = some s := by
  have edge {e : Edge} (hs : s ∈ (f e).toList) : ∃ t ∈ e.toList, f (some t) = some s := by
    cases e with
    | none => rw [hf] at hs; cases hs
    | some t => exact ⟨t, by simp, by simpa using hs⟩
  cases n with
  | construct slots =>
      obtain ⟨e, he, hs⟩ := List.mem_filterMap.1 h
      obtain ⟨e, hmem, rfl⟩ := List.mem_map.1 he
      cases e with
      | none => rw [hf] at hs; cases hs
      | some t => exact ⟨t, List.mem_filterMap.2 ⟨some t, hmem, rfl⟩, hs⟩
  | constant | parameter => cases h
  | unary op e | output e =>
      obtain ⟨t, ht, hs⟩ := edge h
      exact ⟨t, ht, hs⟩
  | binary | compositeUnary | compositeBinary =>
      simp only [mapEdges, edges, List.mem_append] at h ⊢
      grind

/-- A node without its edges to another node. -/
def clear (id : NodeId) (n : Node) : Node := n.mapEdges fun e ↦ if e = some id then none else e

theorem edges_clear (id : NodeId) (n : Node) :
    (n.clear id).edges = n.edges.filter (· ≠ id) := by
  have edge (e : Edge) : (if e = some id then none else e : Edge).toList =
      e.toList.filter (· ≠ id) := by
    cases e with
    | none => rfl
    | some s => by_cases h : s = id <;> simp [h]
  have slot (slots : List Edge) :
      (slots.map fun e ↦ if e = some id then none else e).filterMap (fun e : Edge ↦ e) =
        (slots.filterMap fun e ↦ e).filter (· ≠ id) := by
    induction slots with
    | nil => rfl
    | cons e slots ih =>
        cases e with
        | none => simpa using ih
        | some s => by_cases h : s = id <;> simp_all
  cases n with
  | construct slots => exact slot slots
  | constant | parameter => rfl
  | unary | output | binary | compositeUnary | compositeBinary =>
      simp only [clear, mapEdges, edges, edge, List.filter_append]

theorem clear_eq_self {id : NodeId} {n : Node} (h : id ∉ n.edges) : n.clear id = n := by
  refine mapEdges_eq_self rfl fun s hs ↦ if_neg ?_
  rintro ⟨⟩
  exact h hs

theorem clear_clear (id : NodeId) (n : Node) : (n.clear id).clear id = n.clear id :=
  clear_eq_self (by simp [edges_clear])

end Node

end FieldGraph
