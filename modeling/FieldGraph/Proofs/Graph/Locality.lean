import FieldGraph.Proofs.Graph.Removal

/-!
# Edits are local

A propagation passes work on from a node to its readers and, if it is a composite, to its
placeholders.  Whatever set of nodes is closed under that contains the queue from the first revisit
to the last, so that nothing outside it is touched, whether or not the propagation comes to rest.
For an edit of one node the set is what lies downstream of the node.
-/

namespace FieldGraph.Graph

open Relation

variable {g g' g₁ : Graph} {within : NodeId → Prop} {id j : NodeId} {n n' : Node}

/-- A change of the first node is passed on to the second one: it reads the first one, or is a
placeholder of it. -/
def Informs (g : Graph) (a b : NodeId) : Prop :=
  g.Reads b a ∨ ∃ n, g.node? a = some n ∧ b ∈ n.placeholders

/-- The second node is the first one, or can be reached from it through readers and through the
placeholders of composites. -/
def Downstream (g : Graph) (a b : NodeId) : Prop := ReflTransGen g.Informs a b

/-- Whatever a node of the set informs is in the set. -/
def KeepsWithin (g : Graph) (within : NodeId → Prop) : Prop :=
  ∀ ⦃a b⦄, within a → g.Informs a b → within b

/-- The second graph differs from the first one in the set at most, and there in the types of nodes
and in what the placeholders of composites declare. -/
structure Confined (within : NodeId → Prop) (g g' : Graph) : Prop where
  retyped : Retyped g g'
  entry?_eq : ∀ {j}, ¬ within j → g'.entry? j = g.entry? j
  node?_eq : ∀ {j}, (∀ c n, within c → g.node? c = some n → j ∉ n.placeholders) →
    g'.node? j = g.node? j

/-! ## One propagation -/

theorem Retyped.reads_iff (h : Retyped g g') {a b : NodeId} : g'.Reads a b ↔ g.Reads a b := by
  have mono {g g' : Graph} (h : Retyped g g') (hr : g'.Reads a b) : g.Reads a b := by
    obtain ⟨n', hn', hmem⟩ := exists_node_of_mem_edges hr
    obtain ⟨n, hn, ho⟩ := h.node? hn'
    rwa [Reads, edges_of_node? hn, ← Node.edges_eq_of_outline ho]
  exact ⟨mono h, mono h.symm⟩

theorem KeepsWithin.retyped (hk : g.KeepsWithin within) (h : Retyped g g') :
    g'.KeepsWithin within := by
  rintro a b ha (hr | ⟨n', hn', hb⟩)
  · exact hk ha (.inl (h.reads_iff.1 hr))
  · obtain ⟨n, hn, ho⟩ := h.node? hn'
    exact hk ha (.inr ⟨n, hn, Node.placeholders_eq_of_outline ho ▸ hb⟩)

namespace Confined

theorem refl (g : Graph) : Confined within g g := ⟨.refl g, fun _ ↦ rfl, fun _ ↦ rfl⟩

theorem trans {g'' : Graph} (h : Confined within g g') (h' : Confined within g' g'') :
    Confined within g g'' where
  retyped := h.retyped.trans h'.retyped
  entry?_eq hj := (h'.entry?_eq hj).trans (h.entry?_eq hj)
  node?_eq {j} hj := by
    refine (h'.node?_eq fun c m' hc hm' ↦ ?_).trans (h.node?_eq hj)
    obtain ⟨m, hm, ho⟩ := h.retyped.node? hm'
    rw [Node.placeholders_eq_of_outline ho]
    exact hj c m hc hm

end Confined

theorem eq_of_mem_declare {p q : NodeId} {t : ValueType} (h : q ∈ (g.declare p t).2) : q = p := by
  unfold declare at h
  split at h
  · split at h
    · cases h
    · exact List.mem_singleton.1 h
  · cases h

/-- Only placeholders that are declared anew have to be revisited. -/
theorem mem_of_mem_declareArguments {as : List (NodeId × Edge)} {q : NodeId}
    (h : q ∈ (g.declareArguments as).2) : q ∈ as.map Prod.fst := by
  induction as generalizing g with
  | nil => cases h
  | cons a as ih =>
      rcases List.mem_append.1 h with h | h
      · exact eq_of_mem_declare h ▸ List.mem_cons_self
      · exact List.mem_cons_of_mem _ (ih h)

/-- A revisit of a node of the set changes nothing outside it and queues nodes of it. -/
theorem confined_revisit (hw : g.WellFormed) (hk : g.KeepsWithin within) (hid : within id) :
    Confined within g (g.revisit id).1 ∧ ∀ q ∈ (g.revisit id).2, within q := by
  cases he : g.entry? id with
  | none =>
      rw [revisit_dead he]
      exact ⟨.refl g, fun _ hq ↦ by cases hq⟩
  | some e =>
      have hn := node?_of_entry he
      have hdeclared (q : NodeId) (hq : q ∈ (g.declareArguments e.node.arguments).2) : within q := by
        have hmem := mem_of_mem_declareArguments hq
        rw [Node.arguments_map_fst] at hmem
        exact hk hid (.inr ⟨e.node, hn, hmem⟩)
      have hreader (c : NodeId) (hc : c ∈ e.dependents) : within c := by
        obtain ⟨f, hf⟩ := contains_iff.1 (hw.dependents_live he hc)
        refine hk hid (.inl ?_)
        rw [Reads, edges_of_node? (node?_of_entry hf)]
        exact (hw.mem_dependents_iff he hf).1 hc
      have hentry {j : NodeId} (hj : ¬ within j) :
          entry? (g.declareArguments e.node.arguments).1 j = g.entry? j :=
        (entry?_declareArguments e.node.arguments g j).2 (mt (hdeclared j) hj)
      refine ⟨⟨retyped_revisit g id, fun {j} hj ↦ ?_, fun {j} hj ↦ ?_⟩, fun q hq ↦ ?_⟩
      · rw [revisit_eq he]
        simp only
        split
        · exact hentry hj
        · have hne : id ≠ j := by
            rintro rfl
            exact hj hid
          rw [entry?_setType, if_neg hne, hentry hj]
      · rw [node?_revisit hn, node?_declareArguments]
        rw [Node.arguments_map_fst]
        exact hj id e.node hid hn
      · rw [revisit_eq he] at hq
        simp only at hq
        split at hq
        · exact hdeclared q hq
        · rcases List.mem_append.1 hq with hq | hq
          · exact hdeclared q hq
          · exact hreader q hq

/-- A propagation from nodes of a closed set stays in it. -/
theorem confined_propagate (hw : g.WellFormed) (hk : g.KeepsWithin within) {changed : List NodeId}
    (hc : ∀ q ∈ changed, within q) : Confined within g (g.propagate changed) := by
  have hrun := (settleWithin_invariant
    (P := fun g' queue ↦ Confined within g g' ∧ ∀ q ∈ queue, within q)
    (fun g' id queue h ↦ by
      have hr := h.1.retyped
      obtain ⟨hg, hq⟩ := confined_revisit (hw.retyped hr) (hk.retyped hr)
        (h.2 id List.mem_cons_self)
      refine ⟨h.1.trans hg, fun q hmem ↦ ?_⟩
      rcases List.mem_append.1 hmem with hmem | hmem
      · exact h.2 q (List.mem_cons_of_mem id hmem)
      · exact hq q hmem) g.budget ⟨.refl g, hc⟩).1
  unfold propagate
  split
  next g' heq => rwa [heq] at hrun
  next g' rest _ heq =>
    rw [heq] at hrun
    exact ⟨⟨hrun.retyped.capacity_eq, hrun.retyped.size_eq, hrun.retyped.outline_eq⟩,
      hrun.entry?_eq, hrun.node?_eq⟩

/-! ## Edits of one node -/

/-- The second graph has another node at one place, with the placeholders of the former one, and the
readers and types that belong to it; nothing has been brought up to date. -/
structure Edited (g : Graph) (id : NodeId) (n n' : Node) (g' : Graph) : Prop where
  node?_self : g.node? id = some n
  placeholders_eq : n'.placeholders = n.placeholders
  wellFormed : g'.WellFormed
  ids_eq : g'.ids = g.ids
  type?_eq : ∀ j, g'.type? j = g.type? j
  node?_eq : ∀ j, g'.node? j = if id = j then some n' else g.node? j

theorem edited_rewire (hw : g.WellFormed) {port : Port} {former source : Edge}
    (hn : g.node? id = some n) (hf : n.port? port = some former)
    (hn' : n.setPort? source port = some n') (hs : ∀ s ∈ source, g.contains s) :
    Edited g id n n' (g.rewire id n' former source) where
  node?_self := hn
  placeholders_eq := (Node.setPort?_fields hn').1
  wellFormed := hw.rewire hn hf hn' hs
  ids_eq := ids_congr (rewire_fields g id n' former source).1 fun j ↦ contains_rewire ..
  type?_eq j := by
    rw [type?, type?, entry?_rewire]
    cases g.entry? j <;> rfl
  node?_eq j := by
    rw [node?, node?, entry?_rewire]
    cases he : g.entry? j with
    | none =>
        have hne : id ≠ j := by
          rintro rfl
          simp [node?, he] at hn
        rw [if_neg hne]
        rfl
    | some e =>
        rw [Option.map_some, Option.map_some, Option.map_some]
        split <;> rfl

theorem edited_setNode (hw : g.WellFormed) (hn : g.node? id = some n) (hr : n.Replaceable n') :
    Edited g id n n' (g.setNode id n') where
  node?_self := hn
  placeholders_eq := hr.placeholders_eq
  wellFormed := hw.setNode hn hr
  ids_eq := ids_congr (capacity_modifyEntry ..) fun j ↦ contains_modifyEntry ..
  type?_eq j := by
    rw [type?, type?, entry?_setNode]
    split
    · cases g.entry? j <;> rfl
    · rfl
  node?_eq j := by
    rw [node?, entry?_setNode]
    split
    next hj =>
      subst hj
      obtain ⟨e, he, -⟩ := node?_eq_some_iff.1 hn
      rw [he]
      rfl
    · rfl

/-- What lies downstream of a node does not hang on what the node itself reads. -/
theorem Edited.keepsWithin (h : Edited g id n n' g') : g'.KeepsWithin (g.Downstream id) := by
  have old {a : NodeId} {k : Node} (hne : id ≠ a) (hk : g'.node? a = some k) :
      g.node? a = some k := by rwa [h.node?_eq, if_neg hne] at hk
  rintro a b ha (hr | ⟨k, hk, hb⟩)
  · by_cases hid : id = b
    · exact hid ▸ .refl
    · obtain ⟨k, hk, hmem⟩ := exists_node_of_mem_edges hr
      refine ha.tail (.inl ?_)
      rwa [Reads, edges_of_node? (old hid hk)]
  · by_cases hid : id = a
    · subst hid
      rw [h.node?_eq, if_pos rfl] at hk
      cases hk
      exact ha.tail (.inr ⟨n, h.node?_self, h.placeholders_eq ▸ hb⟩)
    · exact ha.tail (.inr ⟨k, old hid hk, hb⟩)

/-- Apart from the edited node, a node is as before unless a composite downstream has it for a
placeholder; then at most its declared type is another one. -/
structure LocallyEdited (g : Graph) (id : NodeId) (n n' : Node) (g' : Graph) : Prop where
  node?_self : g.node? id = some n
  ids_eq : g'.ids = g.ids
  type?_eq : ∀ j, ¬ g.Downstream id j → g'.type? j = g.type? j
  node?_eq : ∀ j m, (if id = j then some n' else g.node? j) = some m → g'.node? j = some m ∨
    ∃ c k i t t', g.Downstream id c ∧ g.node? c = some k ∧ j ∈ k.placeholders ∧
      m = .parameter i t ∧ g'.node? j = some (.parameter i t')

theorem Edited.propagate (h : Edited g id n n' g') : LocallyEdited g id n n' (g'.propagate [id]) := by
  have hself (q : NodeId) (hq : q ∈ [id]) : g.Downstream id q := by
    rw [List.mem_singleton.1 hq]
    exact .refl
  have hc := confined_propagate h.wellFormed h.keepsWithin hself
  refine ⟨h.node?_self, hc.retyped.ids_eq.trans h.ids_eq, fun j hj ↦ ?_, fun j m hm ↦ ?_⟩
  · rw [type?, hc.entry?_eq hj]
    exact h.type?_eq j
  · rw [← h.node?_eq] at hm
    by_cases hp : ∃ c k, g.Downstream id c ∧ g'.node? c = some k ∧ j ∈ k.placeholders
    · obtain ⟨c, k, hdown, hk, hj⟩ := hp
      -- the composite lists the placeholder before the edit, too
      obtain ⟨k₀, hk₀, hj₀⟩ : ∃ k₀, g.node? c = some k₀ ∧ j ∈ k₀.placeholders := by
        rw [h.node?_eq] at hk
        split at hk
        next hid =>
          subst hid
          cases hk
          exact ⟨n, h.node?_self, h.placeholders_eq ▸ hj⟩
        · exact ⟨k, hk, hj⟩
      obtain ⟨i, t, rfl⟩ := Node.exists_parameter_of_isParameter
        (h.wellFormed.isParameter_of_mem_placeholders (mem_placeholders.2 ⟨c, k, hk, hj⟩) hm)
      obtain ⟨m', hm', ho⟩ := hc.retyped.symm.node? hm
      obtain ⟨i', t', rfl⟩ := Node.exists_parameter_of_isParameter
        ((Node.isParameter_eq_of_outline ho).symm.trans rfl)
      obtain rfl : i = i' := by
        injection ho
      exact .inr ⟨c, k₀, i, t, t', hdown, hk₀, hj₀, rfl, hm'⟩
    · refine .inl ((hc.node?_eq fun c k hdown hk hj ↦ hp ⟨c, k, hdown, hk, hj⟩).trans hm)

/-! ## Runs -/

/-- The node that an edit of one node is about, and what the edit makes of it. -/
def Action.edit? : Action → Option (NodeId × (Node → Option Node))
  | setEdge id port source => some (id, fun n ↦ n.setPort? source port)
  | disconnect id port => some (id, fun n ↦ n.setPort? none port)
  | setBody composite body => some (composite, fun n ↦ n.setPort? (some body) .body)
  | setConstant id v => some (id, fun
    | .constant _ => some (.constant v)
    | _ => none)
  | setUnaryOp id op => some (id, fun
    | .unary _ e => some (.unary op e)
    | _ => none)
  | setBinaryOp id op => some (id, fun
    | .binary _ l r => some (.binary op l r)
    | _ => none)
  | setDeclared id declared => some (id, fun
    | .parameter i _ => some (.parameter i declared)
    | _ => none)
  | _ => none

theorem locallyEdited_setEdge (hw : g.WellFormed) {port : Port} {source : Edge}
    (h : g.setEdge id port source = .ok g') :
    ∃ n n', n.setPort? source port = some n' ∧ LocallyEdited g id n n' g' := by
  obtain ⟨n, former, n', hs, hn, hf, hn', rfl⟩ := exists_rewire_of_setEdge h
  exact ⟨n, n', hn', (edited_rewire hw hn hf hn' hs).propagate⟩

theorem locallyEdited_revise (hw : g.WellFormed) {kind : String} {f : Node → Option Node}
    (hf : ∀ n n', f n = some n' → n.Replaceable n') (h : g.revise id kind f = .ok g') :
    ∃ n n', f n = some n' ∧ LocallyEdited g id n n' g' := by
  obtain ⟨n, n', hn, hn', rfl⟩ := exists_setNode_of_revise h
  exact ⟨n, n', hn', (edited_setNode hw hn (hf n n' hn')).propagate⟩

theorem locallyEdited_perform (hw : g.WellFormed) {a : Action} {f : Node → Option Node}
    (ha : a.edit? = some (id, f)) (h : a.perform g = .ok g') :
    ∃ n n', f n = some n' ∧ LocallyEdited g id n n' g' := by
  cases a with
  | setEdge | disconnect | setBody =>
      cases ha
      exact locallyEdited_setEdge hw h
  | setConstant | setUnaryOp | setBinaryOp | setDeclared =>
      cases ha
      refine locallyEdited_revise hw (fun n n' hn ↦ ?_) h
      cases n <;> cases hn
      exact ⟨rfl, rfl, rfl, fun harity ↦ harity⟩
  | _ => cases ha

/-- Edits are local.  An accepted edit of one node puts in its place what the edit makes of it, and
changes types only downstream of the node, through readers and the placeholders of composites.  All
other nodes stay as they are, but for the types declared on placeholders of composites that are the
node or lie downstream of it.  This holds in any graph, with cycles or without, and whether or not
the propagation comes to rest; a refused edit changes nothing. -/
theorem edit_local (actions : List Action) {a : Action} {f : Node → Option Node}
    (ha : a.edit? = some (id, f)) :
    let g := after actions
    let g' := a.apply g
    (∀ e, a.perform g = .error e → g' = g) ∧
    ((a.perform g).isOk → ∃ n n', g.node? id = some n ∧ f n = some n' ∧
      g'.ids = g.ids ∧
      (∀ j, ¬ g.Downstream id j → g'.type? j = g.type? j) ∧
      ∀ j m, (if id = j then some n' else g.node? j) = some m → g'.node? j = some m ∨
        ∃ c k i t t', g.Downstream id c ∧ g.node? c = some k ∧ j ∈ k.placeholders ∧
          m = .parameter i t ∧ g'.node? j = some (.parameter i t')) := by
  intro g g'
  have happly : g' = a.apply g := rfl
  rw [Action.apply] at happly
  cases hp : a.perform g with
  | error e =>
      rw [hp] at happly
      exact ⟨fun _ _ ↦ happly, fun h ↦ by cases h⟩
  | ok g₁ =>
      rw [hp] at happly
      obtain ⟨n, n', hn', h⟩ := locallyEdited_perform (wellFormed_after actions) ha hp
      rw [happly]
      exact ⟨fun e he ↦ (by cases he),
        fun _ ↦ ⟨n, n', h.node?_self, hn', h.ids_eq, h.type?_eq, h.node?_eq⟩⟩

/-- A composite on one parameter, and a copy of it that is given another one. -/
def twoArguments : List Action :=
  [.parameter 0 (.of .float), .parameter 1 (.of .float), .compositeUnary,
    .setEdge ⟨3⟩ .input (some ⟨0⟩), .unary .negate ⟨2⟩, .output ⟨4⟩, .setBody ⟨3⟩ ⟨5⟩,
    .duplicate ⟨3⟩, .setEdge ⟨9⟩ .input (some ⟨1⟩)]

theorem downstream_twoArguments {j : NodeId} (h : (after twoArguments).Downstream ⟨1⟩ j) :
    j ∈ [(⟨1⟩ : NodeId), ⟨6⟩, ⟨7⟩, ⟨8⟩, ⟨9⟩] := by
  have hreaders : ∀ a ∈ [(⟨1⟩ : NodeId), ⟨6⟩, ⟨7⟩, ⟨8⟩, ⟨9⟩], ∀ b ∈ (after twoArguments).ids,
      a ∈ (after twoArguments).edges b → b ∈ [(⟨1⟩ : NodeId), ⟨6⟩, ⟨7⟩, ⟨8⟩, ⟨9⟩] := by
    decide +kernel
  have hplaceholders : ∀ a ∈ [(⟨1⟩ : NodeId), ⟨6⟩, ⟨7⟩, ⟨8⟩, ⟨9⟩],
      ∀ n ∈ (after twoArguments).node? a, ∀ p ∈ n.placeholders,
        p ∈ [(⟨1⟩ : NodeId), ⟨6⟩, ⟨7⟩, ⟨8⟩, ⟨9⟩] := by
    decide +kernel
  refine mem_of_reaches h List.mem_cons_self fun a ha b hab ↦ ?_
  rcases hab with hr | ⟨n, hn, hp⟩
  · obtain ⟨n, hn, -⟩ := exists_node_of_mem_edges hr
    exact hreaders a ha b (mem_ids.2 (contains_of_node? hn)) hr
  · exact hplaceholders a ha n hn b hp

/-- Another type for the second argument reaches the copy and its placeholder, and leaves the
original composite alone. -/
theorem edit_local_twoArguments :
    let g' := (Action.setDeclared ⟨1⟩ (.of .float2)).apply (after twoArguments)
    g'.type? ⟨9⟩ = some (.of .float2) ∧
      g'.node? ⟨6⟩ = some (.parameter 0 (.of .float2)) ∧
      g'.type? ⟨3⟩ = (after twoArguments).type? ⟨3⟩ ∧
      g'.node? ⟨2⟩ = some (.parameter 0 (.of .float)) := by
  intro g'
  have hlocal := (edit_local twoArguments (a := .setDeclared ⟨1⟩ (.of .float2)) rfl).2
    (by decide +kernel)
  obtain ⟨n, n', -, -, -, htype, -⟩ := hlocal
  refine ⟨by decide +kernel, by decide +kernel, htype ⟨3⟩ fun h ↦ ?_, by decide +kernel⟩
  exact absurd (downstream_twoArguments h) (by decide)

end FieldGraph.Graph
