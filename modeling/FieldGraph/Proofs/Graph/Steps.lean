import FieldGraph.Proofs.Graph.Copying

/-!
# Runs of edits

Every edit is a sequence of changes of the wiring, each followed by a propagation from the nodes it
touched.  What one change with its propagation preserves holds after any run of edits, refused
edits included, because those leave the graph alone.
-/

namespace FieldGraph

namespace Graph

/-- One change of the wiring, the nodes it touches, and the graph it leaves to be brought up to
date. -/
inductive Change (g : Graph) : List NodeId → Graph → Prop
  | attach {n : Node} (hn : g.Admissible n) : Change g [g.nextId] (g.attach n)
  | rewire {id : NodeId} {port : Port} {n n' : Node} {former source : Edge}
      (hn : g.node? id = some n) (hf : n.port? port = some former)
      (hn' : n.setPort? source port = some n') (hs : ∀ s ∈ source, g.contains s) :
      Change g [id] (g.rewire id n' former source)
  | replace {id : NodeId} {n n' : Node} (hn : g.node? id = some n) (hr : n.Replaceable n') :
      Change g [id] (g.setNode id n')
  | detach {id : NodeId} {e : Entry} (he : g.entry? id = some e) :
      Change g e.consumers (g.detach id e)

/-- The second graph is the first one after changes that have each been propagated. -/
inductive Steps (g : Graph) : Graph → Prop
  | refl : Steps g g
  | step {g₁ g₂ : Graph} {touched : List NodeId} :
      Steps g g₁ → Change g₁ touched g₂ → Steps g (g₂.propagate touched)

variable {g g' : Graph}

theorem WellFormed.change (h : g.WellFormed) {touched : List NodeId} (hc : Change g touched g') :
    g'.WellFormed := by
  cases hc with
  | attach hn => exact h.attach hn
  | rewire hn hf hn' hs => exact h.rewire hn hf hn' hs
  | replace hn hr => exact h.setNode hn hr
  | detach he => exact h.detach he

/-- A change leaves the flag to the propagation that follows. -/
theorem Change.settled_eq {touched : List NodeId} (hc : Change g touched g') :
    g'.settled = g.settled := by
  cases hc with
  | attach => exact (attach_fields g _).2.2
  | rewire => exact (rewire_fields g _ _ _ _).2.2
  | replace => rfl
  | detach => exact (detach_fields g _ _).2.2

namespace Steps

theorem one {touched : List NodeId} (h : Change g touched g') : Steps g (g'.propagate touched) :=
  .step .refl h

theorem trans {g'' : Graph} (h : Steps g g') (h' : Steps g' g'') : Steps g g'' := by
  induction h' with
  | refl => exact h
  | step _ hc ih => exact .step ih hc

theorem wellFormed (h : g.WellFormed) (hs : Steps g g') : g'.WellFormed := by
  induction hs with
  | refl => exact h
  | step _ hc ih => exact (ih.change hc).propagate _

/-- The flag is never set again. -/
theorem settled_of_settled (hs : Steps g g') (h : g'.settled = true) : g.settled = true := by
  induction hs with
  | refl => exact h
  | step _ hc ih => exact ih (hc.settled_eq ▸ ((settled_propagate_iff ..).1 h).1)

end Steps

theorem Grows.steps (hg : Grows g g') : Steps g g' := by
  induction hg with
  | refl => exact .refl
  | insert _ hn ih => exact .step ih (.attach hn)

theorem steps_add {n : Node} {r : NodeId × Graph} (h : g.add n = .ok r) : Steps g r.2 := by
  obtain ⟨hn, rfl⟩ := add_eq_ok_iff.1 h
  exact (grows_insert hn).steps

theorem steps_setEdge {id : NodeId} {port : Port} {source : Edge}
    (h : g.setEdge id port source = .ok g') : Steps g g' := by
  obtain ⟨n, former, n', hs, hn, hf, hn', rfl⟩ := exists_rewire_of_setEdge h
  exact .one (.rewire hn hf hn' hs)

theorem steps_revise {id : NodeId} {kind : String} {f : Node → Option Node}
    (hf : ∀ n n', f n = some n' → n.Replaceable n') (h : g.revise id kind f = .ok g') :
    Steps g g' := by
  obtain ⟨n, n', hn, hn', rfl⟩ := exists_setNode_of_revise h
  exact .one (.replace hn (hf n n' hn'))

theorem steps_takeOut {id : NodeId} {e : Entry} (he : g.entry? id = some e) :
    Steps g (g.takeOut id e) := .one (.detach he)

theorem steps_dropPlaceholder (g : Graph) (p : NodeId) : Steps g (g.dropPlaceholder p) := by
  unfold dropPlaceholder
  split
  · exact .refl
  · split
    next e he => exact steps_takeOut he
    · exact .refl

theorem steps_remove {id : NodeId} {r : Node × Graph} (h : g.remove id = .ok r) : Steps g r.2 := by
  unfold remove at h
  split at h
  · cases h
  next e he =>
    cases h
    exact List.foldlRecOn (motive := Steps g) _ _ (steps_takeOut he)
      fun g' hg p _ ↦ hg.trans (steps_dropPlaceholder g' p)

/-! ## Actions -/

/-- One edit of a graph, with all that it is given. -/
inductive Action where
  | add (n : Node)
  | constant (v : Value)
  | parameter (index : Nat) (declared : ValueType)
  | unary (op : UnaryOp) (operand : NodeId)
  | binary (op : BinaryOp) (lhs rhs : NodeId)
  | construct (slots : List NodeId)
  | output (source : NodeId)
  | compositeUnary
  | compositeBinary
  | duplicate (id : NodeId)
  | remove (id : NodeId)
  /-- Rewire a port; the edits named after single ports are this one. -/
  | setEdge (id : NodeId) (port : Port) (source : Edge)
  | disconnect (id : NodeId) (port : Port)
  | setBody (composite body : NodeId)
  | setConstant (id : NodeId) (v : Value)
  | setUnaryOp (id : NodeId) (op : UnaryOp)
  | setBinaryOp (id : NodeId) (op : BinaryOp)
  | setDeclared (id : NodeId) (declared : ValueType)

namespace Action

/-- The graph an action leaves, or why it is refused. -/
def perform (g : Graph) : Action → Except GraphError Graph
  | add n => (g.add n).map Prod.snd
  | constant v => .ok (g.addConstant v).2
  | parameter index declared => .ok (g.addParameter index declared).2
  | unary op operand => (g.addUnary op operand).map Prod.snd
  | binary op lhs rhs => (g.addBinary op lhs rhs).map Prod.snd
  | construct slots => (g.addConstruct slots).map Prod.snd
  | output source => (g.addOutput source).map Prod.snd
  | compositeUnary => .ok g.addCompositeUnary.2
  | compositeBinary => .ok g.addCompositeBinary.2
  | duplicate id => (g.duplicate id).map Prod.snd
  | remove id => (g.remove id).map Prod.snd
  | setEdge id port source => g.setEdge id port source
  | disconnect id port => g.disconnect id port
  | setBody composite body => g.setBody composite body
  | setConstant id v => g.setConstant id v
  | setUnaryOp id op => g.setUnaryOp id op
  | setBinaryOp id op => g.setBinaryOp id op
  | setDeclared id declared => g.setDeclared id declared

/-- The graph after an action; a refused one leaves it as it was. -/
def apply (g : Graph) (a : Action) : Graph :=
  match a.perform g with
  | .ok g' => g'
  | .error _ => g

end Action

/-- The graph after a run of actions, from the empty one on. -/
def after (actions : List Action) : Graph := actions.foldl Action.apply empty

private theorem steps_map_snd {α : Type} {x : Except GraphError (α × Graph)}
    (h : ∀ r, x = .ok r → Steps g r.2) (hx : x.map Prod.snd = .ok g') : Steps g g' := by
  cases x with
  | error e => cases hx
  | ok r =>
      cases hx
      exact h r rfl

theorem steps_perform (h : g.WellFormed) {a : Action} (ha : a.perform g = .ok g') :
    Steps g g' := by
  cases a with
  | add | unary | binary | construct | output => exact steps_map_snd (fun _ ↦ steps_add) ha
  | constant v =>
      obtain rfl := Except.ok.inj ha
      have hn : g.Admissible (.constant v) := .of_edges (fun _ hs ↦ by cases hs) trivial rfl
      exact (grows_insert hn).steps
  | parameter index declared =>
      obtain rfl := Except.ok.inj ha
      exact (grows_addParameter g index declared).steps
  | compositeUnary =>
      obtain rfl := Except.ok.inj ha
      exact (grows_addCompositeUnary g).steps
  | compositeBinary =>
      obtain rfl := Except.ok.inj ha
      exact (grows_addCompositeBinary g).steps
  | duplicate id => exact steps_map_snd (fun _ hr ↦ (grows_duplicate h hr).steps) ha
  | remove id => exact steps_map_snd (fun _ ↦ steps_remove) ha
  | setEdge id port source => exact steps_setEdge ha
  | disconnect id port =>
      simp only [Action.perform, disconnect] at ha
      exact steps_setEdge ha
  | setBody composite body =>
      simp only [Action.perform, setBody] at ha
      exact steps_setEdge ha
  | setConstant | setUnaryOp | setBinaryOp | setDeclared =>
      simp only [Action.perform, setConstant, setUnaryOp, setBinaryOp, setDeclared] at ha
      refine steps_revise (fun n n' hn ↦ ?_) ha
      cases n <;> cases hn
      exact ⟨rfl, rfl, rfl, fun harity ↦ harity⟩

theorem steps_apply (h : g.WellFormed) (a : Action) : Steps g (a.apply g) := by
  unfold Action.apply
  split
  next g' ha => exact steps_perform h ha
  · exact .refl

theorem steps_foldl_apply (h : g.WellFormed) (actions : List Action) :
    Steps g (actions.foldl Action.apply g) := by
  induction actions generalizing g with
  | nil => exact .refl
  | cons a actions ih =>
      have hs := steps_apply h a
      exact hs.trans (ih (hs.wellFormed h))

/-- Whatever is edited, the bookkeeping stays in step with the edges. -/
theorem wellFormed_after (actions : List Action) : (after actions).WellFormed :=
  (steps_foldl_apply .empty actions).wellFormed .empty

/-- Whatever is edited, subscriptions are exactly edges.  A port is wired to a live node or to none;
a node is noted among the consumers of another one as often as its ports are wired to that one, and
nothing dead is noted; vectors have two to four slots; and a placeholder has been removed or is a
live parameter. -/
theorem subscriptions_after (actions : List Action) :
    let g := after actions
    (∀ id n, g.node? id = some n →
      (∀ port s, n.port? port = some (some s) → g.contains s) ∧
      (∀ s, g.contains s → (g.dependents s).count id =
        n.ports.countP fun port ↦ n.port? port = some (some s)) ∧
      (∀ slots, n = .construct slots → 2 ≤ slots.length ∧ slots.length ≤ 4) ∧
      ∀ p ∈ n.placeholders, p.index < g.capacity ∧
        (g.contains p → ∃ index t, g.node? p = some (.parameter index t))) ∧
    (∀ s, ∀ c ∈ g.dependents s, g.contains c) ∧
    g.size = g.ids.length := by
  intro g
  have hw : g.WellFormed := wellFormed_after actions
  refine ⟨fun id n hn ↦ ?_, fun s c hc ↦ ?_, hw.size_eq⟩
  · obtain ⟨e, he, rfl⟩ := node?_eq_some_iff.1 hn
    refine ⟨fun port s hport ↦ ?_, fun s hs ↦ ?_, fun slots hslots ↦ ?_, fun p hp ↦ ?_⟩
    · exact hw.edges_live he (Node.mem_edges_of_port? hport)
    · obtain ⟨f, hf⟩ := contains_iff.1 hs
      rw [dependents_of_entry hf, hw.count_dependents hf he, Node.count_edges]
    · have harity := hw.arity he
      rwa [hslots] at harity
    · obtain ⟨hlt, hparameter⟩ := hw.placeholders he hp
      refine ⟨hlt, fun hlive ↦ ?_⟩
      obtain ⟨f, hf⟩ := contains_iff.1 hlive
      obtain ⟨index, t, hnode⟩ := Node.exists_parameter_of_isParameter (hparameter f hf)
      exact ⟨index, t, by rw [node?_of_entry hf, hnode]⟩
  · cases hs : g.entry? s with
    | none => simp [dependents, hs] at hc
    | some e =>
        rw [dependents_of_entry hs] at hc
        exact hw.dependents_live hs hc

/-- A vector with one source in two of its slots, a sum that reads itself, a composite copied after
its placeholder was taken out, and an edit that is refused. -/
def tangledEdits : List Action :=
  [.constant (.float 1), .construct [⟨0⟩, ⟨0⟩], .binary .add ⟨0⟩ ⟨0⟩,
    .setEdge ⟨2⟩ .rhs (some ⟨2⟩), .compositeUnary, .output ⟨3⟩, .setBody ⟨4⟩ ⟨5⟩, .remove ⟨3⟩,
    .duplicate ⟨4⟩, .unary .negate ⟨3⟩]

/-- The constant is noted twice for the vector and once for the sum, which is noted for itself. -/
theorem subscriptions_tangledEdits :
    let g := after tangledEdits
    g.dependents ⟨0⟩ = [⟨1⟩, ⟨1⟩, ⟨2⟩] ∧ g.dependents ⟨2⟩ = [⟨2⟩] ∧ ¬ g.contains ⟨3⟩ ∧
      (∀ s, ∀ c ∈ g.dependents s, g.contains c) ∧ g.size = g.ids.length := by
  intro g
  refine ⟨by decide +kernel, by decide +kernel, by decide +kernel, ?_⟩
  exact (subscriptions_after tangledEdits).2

/-- A longer run goes on from where a shorter one ended. -/
theorem steps_after_append (actions more : List Action) :
    Steps (after actions) (after (actions ++ more)) := by
  rw [after, after, List.foldl_append]
  exact steps_foldl_apply (wellFormed_after actions) more

/-! ## Properties of every edit of a run -/

/-- Every edit of the run has the property in the graph that the edits before it leave. -/
def Throughout (P : Graph → Action → Prop) (actions : List Action) : Prop :=
  ∀ (k : Nat) (hk : k < actions.length), P (after (actions.take k)) actions[k]

instance {P : Graph → Action → Prop} [∀ g a, Decidable (P g a)] (actions : List Action) :
    Decidable (Throughout P actions) :=
  inferInstanceAs (Decidable (∀ k, ∀ hk : k < actions.length, P (after (actions.take k)) actions[k]))

section Throughout

variable {P : Graph → Action → Prop} {actions done : List Action}

theorem Throughout.of_prefix (h : Throughout P actions) (hd : done <+: actions) :
    Throughout P done := by
  obtain ⟨rest, rfl⟩ := hd
  intro k hk
  have := h k (by rw [List.length_append]; omega)
  rwa [List.take_append_of_le_length (Nat.le_of_lt hk), List.getElem_append_left hk] at this

theorem Throughout.last {a : Action} (h : Throughout P (actions ++ [a])) : P (after actions) a := by
  have := h actions.length (by simp)
  rwa [List.take_left, List.getElem_concat_length rfl] at this

theorem after_concat (actions : List Action) (a : Action) :
    after (actions ++ [a]) = a.apply (after actions) := by
  rw [after, List.foldl_append]
  rfl

/-- What holds of the empty graph and is kept by every edit with a property holds after every run
of such edits. -/
theorem after_induction {motive : Graph → Prop} (h : Throughout P actions) (empty : motive empty)
    (step : ∀ {g g' : Graph} {a : Action}, g.WellFormed → motive g → P g a → a.perform g = .ok g' →
      motive g') : motive (after actions) := by
  induction actions using List.reverseRecOn with
  | nil => exact empty
  | append_singleton actions a ih =>
      have hg := ih (h.of_prefix (List.prefix_append ..))
      rw [after_concat, Action.apply]
      split
      next g' ha => exact step (wellFormed_after actions) hg h.last ha
      · exact hg

end Throughout

end Graph

end FieldGraph
