import FieldGraph.Proofs.Graph.Steps

/-!
# Consistent types

A node is consistent when its type is the one inferred from the nodes it reads.  A revisit makes its
node consistent, and everything it may put out of step, the consumers of the node and the
placeholders of its arguments, joins the queue.  So a propagation that ends with an empty queue
leaves no node out of step.
-/

namespace FieldGraph.Graph

variable {g g' : Graph}

/-- Every node has the type inferred from the current types of the nodes it reads. -/
def Consistent (g : Graph) : Prop :=
  ∀ id e, g.entry? id = some e → e.type = g.infer e.node

/-- Every node has the inferred type, unless it waits to be revisited. -/
def ConsistentBut (g : Graph) (queue : List NodeId) : Prop :=
  ∀ id e, g.entry? id = some e → id ∉ queue → e.type = g.infer e.node

theorem consistentBut_nil : g.ConsistentBut [] ↔ g.Consistent :=
  ⟨fun h id e he ↦ h id e he List.not_mem_nil, fun h id e he _ ↦ h id e he⟩

theorem consistent_empty : empty.Consistent := fun id e he ↦ by simp at he

theorem edgeType_congr {e : Edge} (h : ∀ s ∈ e, g'.type? s = g.type? s) :
    g'.edgeType e = g.edgeType e := by
  cases e with
  | none => rfl
  | some s => simp [edgeType, h s rfl]

/-- The inferred type depends on nothing but the types of the nodes that are read. -/
theorem infer_congr {n : Node} (h : ∀ s ∈ n.edges, g'.type? s = g.type? s) :
    g'.infer n = g.infer n := by
  have edge {e : Edge} (he : ∀ s ∈ e, s ∈ n.edges) : g'.edgeType e = g.edgeType e :=
    edgeType_congr fun s hs ↦ h s (he s hs)
  cases n with
  | constant | parameter => rfl
  | unary op e | output e =>
      simp only [infer]
      rw [edge fun s hs ↦ by simpa [Node.edges] using hs]
  | binary op l r =>
      simp only [infer]
      rw [edge fun s hs ↦ List.mem_append_left _ (Option.mem_toList.2 hs),
        edge fun s hs ↦ List.mem_append_right _ (Option.mem_toList.2 hs)]
  | construct slots =>
      have hslots : slots.map g'.edgeType = slots.map g.edgeType := List.map_congr_left fun e he ↦
        edge fun s hs ↦ List.mem_filterMap.2 ⟨e, he, hs⟩
      simp only [infer, hslots]
  | compositeUnary | compositeBinary =>
      simp only [infer]
      rw [edge fun s hs ↦ List.mem_append_right _ (Option.mem_toList.2 hs)]

/-! ## One revisit -/

/-- Declaring argument types leaves all types alone, and changes no entry but those of the
placeholders that have to be revisited. -/
theorem entry?_declare (g : Graph) (p : NodeId) (t : ValueType) (j : NodeId) :
    (g.declare p t).1.type? j = g.type? j ∧
      (j ∉ (g.declare p t).2 → entry? (g.declare p t).1 j = g.entry? j) := by
  unfold declare
  split
  · split
    · exact ⟨rfl, fun _ ↦ rfl⟩
    · constructor
      · rw [type?, type?, entry?_setNode]
        split
        · cases g.entry? j <;> rfl
        · rfl
      · intro hj
        rw [entry?_setNode, if_neg (Ne.symm (List.ne_of_not_mem_cons hj))]
  · exact ⟨rfl, fun _ ↦ rfl⟩

theorem entry?_declareArguments (arguments : List (NodeId × Edge)) (g : Graph) (j : NodeId) :
    (g.declareArguments arguments).1.type? j = g.type? j ∧
      (j ∉ (g.declareArguments arguments).2 →
        entry? (g.declareArguments arguments).1 j = g.entry? j) := by
  induction arguments generalizing g with
  | nil => exact ⟨rfl, fun _ ↦ rfl⟩
  | cons a arguments ih =>
      obtain ⟨ht, he⟩ := entry?_declare g a.1 (g.edgeType a.2) j
      obtain ⟨ht', he'⟩ := ih (g.declare a.1 (g.edgeType a.2)).1
      refine ⟨ht'.trans ht, fun hj ↦ ?_⟩
      obtain ⟨hj, hj'⟩ := not_or.1 (mt List.mem_append.2 hj)
      exact (he' hj').trans (he hj)

/-- What a revisit does: it declares the types of the arguments, and if the inferred type is a new
one it stores it and puts the consumers in the queue. -/
theorem revisit_eq {id : NodeId} {e : Entry} (he : g.entry? id = some e) :
    g.revisit id =
      let d := g.declareArguments e.node.arguments
      if g.infer e.node = e.type then d
      else (d.1.setType id (g.infer e.node), d.2 ++ e.dependents) := by
  have hinfer : (g.declareArguments e.node.arguments).1.infer e.node = g.infer e.node :=
    infer_congr fun s _ ↦ (entry?_declareArguments e.node.arguments g s).1
  rw [revisit, he]
  simp only [hinfer]

theorem revisit_dead {id : NodeId} (h : g.entry? id = none) : g.revisit id = (g, []) := by
  rw [revisit, h]

theorem type?_setType_of_ne {id s : NodeId} {t : ValueType} (h : s ≠ id) :
    (g.setType id t).type? s = g.type? s := by
  rw [type?, type?, entry?_setType, if_neg (Ne.symm h)]

/-- A revisit makes its node consistent and queues whatever it puts out of step. -/
theorem ConsistentBut.revisit {id : NodeId} {queue : List NodeId}
    (h : g.ConsistentBut (id :: queue)) (hw : g.WellFormed) :
    (g.revisit id).1.ConsistentBut (queue ++ (g.revisit id).2) := by
  cases he : g.entry? id with
  | none =>
      rw [revisit_dead he, List.append_nil]
      intro j f hf hj
      have hne : j ≠ id := by
        rintro rfl
        rw [he] at hf
        cases hf
      exact h j f hf (List.not_mem_cons_of_ne_of_not_mem hne hj)
  | some e =>
      rw [revisit_eq he]
      obtain ⟨d, hd⟩ : ∃ d, d = g.declareArguments e.node.arguments := ⟨_, rfl⟩
      have htype (j : NodeId) : d.1.type? j = g.type? j := by
        rw [hd]
        exact (entry?_declareArguments e.node.arguments g j).1
      have hentry {j : NodeId} (hj : j ∉ d.2) : entry? d.1 j = g.entry? j := by
        rw [hd] at hj ⊢
        exact (entry?_declareArguments e.node.arguments g j).2 hj
      have hinfer (n : Node) : d.1.infer n = g.infer n := infer_congr fun s _ ↦ htype s
      -- a node that does not wait is the revisited one, or was consistent before
      have old {j : NodeId} {f : Entry} (hf : g.entry? j = some f) (hne : j ≠ id)
          (hj : j ∉ queue) : f.type = g.infer f.node :=
        h j f hf (List.not_mem_cons_of_ne_of_not_mem hne hj)
      simp only [← hd]
      split
      next heq =>
        intro j f hf hj
        obtain ⟨hj, hj'⟩ := not_or.1 (mt List.mem_append.2 hj)
        rw [hentry hj'] at hf
        rw [hinfer]
        by_cases hne : j = id
        · subst hne
          rw [he] at hf
          cases hf
          exact heq.symm
        · exact old hf hne hj
      next =>
        intro j f hf hj
        obtain ⟨hj, hj'⟩ := not_or.1 (mt List.mem_append.2 hj)
        obtain ⟨hj', hdep⟩ := not_or.1 (mt List.mem_append.2 hj')
        rw [entry?_setType, hentry hj'] at hf
        -- whatever is not queued does not read the revisited node
        have unread {f₀ : Entry} (hf₀ : g.entry? j = some f₀) :
            (d.1.setType id (g.infer e.node)).infer f₀.node = g.infer f₀.node := by
          rw [← hinfer f₀.node]
          refine infer_congr fun s hs ↦ type?_setType_of_ne ?_
          rintro rfl
          exact hdep (hw.mem_dependents he hf₀ hs)
        by_cases hne : id = j
        · subst hne
          rw [if_pos rfl, he] at hf
          cases hf
          exact (unread he).symm
        · rw [if_neg hne] at hf
          rw [unread hf]
          exact old hf (Ne.symm hne) hj

/-! ## A whole propagation -/

/-- What is out of step when a propagation stops is still in its queue. -/
theorem ConsistentBut.settleWithin {queue : List NodeId} (h : g.ConsistentBut queue)
    (hw : g.WellFormed) (steps : Nat) :
    (settleWithin steps g queue).1.ConsistentBut (settleWithin steps g queue).2 :=
  (settleWithin_invariant (P := fun g queue ↦ g.WellFormed ∧ g.ConsistentBut queue)
    (fun g id _ h ↦ ⟨h.1.retyped (retyped_revisit g id), h.2.revisit h.1⟩) steps ⟨hw, h⟩).2

/-- A propagation that comes to rest leaves every node consistent. -/
theorem ConsistentBut.propagate {changed : List NodeId} (h : g.ConsistentBut changed)
    (hw : g.WellFormed) (hs : (g.propagate changed).settled = true) :
    (g.propagate changed).Consistent := by
  obtain ⟨-, hrest⟩ := (settled_propagate_iff g changed).1 hs
  have hc := h.settleWithin hw g.budget
  unfold Graph.propagate
  split
  next g' heq =>
    rw [heq] at hc
    exact consistentBut_nil.1 hc
  next hne heq =>
    rw [heq] at hrest
    exact absurd hrest hne

/-! ## Runs -/

/-- What a change of the wiring does not touch stays as it is, and what it reads keeps its type. -/
theorem Change.untouched {touched : List NodeId} (hc : Change g touched g') (hw : g.WellFormed)
    {j : NodeId} {f : Entry} (hf : g'.entry? j = some f) (hj : j ∉ touched) :
    ∃ f₀, g.entry? j = some f₀ ∧ f.node = f₀.node ∧ f.type = f₀.type ∧
      ∀ s ∈ f₀.node.edges, g'.type? s = g.type? s := by
  cases hc with
  | @attach n hn =>
      rw [entry?_attach hn.edges_live, if_neg (by simpa using hj)] at hf
      obtain ⟨f₀, hf₀, rfl⟩ := Option.map_eq_some_iff.1 hf
      refine ⟨f₀, hf₀, rfl, rfl, fun s hs ↦ ?_⟩
      obtain ⟨d, hd⟩ := contains_iff.1 (hw.edges_live hf₀ hs)
      rw [type?_of_entry (entry?_attach_of_contains hn.edges_live hd), type?_of_entry hd]
  | rewire =>
      rw [entry?_rewire] at hf
      obtain ⟨f₀, hf₀, rfl⟩ := Option.map_eq_some_iff.1 hf
      refine ⟨f₀, hf₀, if_neg (Ne.symm (List.ne_of_not_mem_cons hj)), rfl, fun s _ ↦ ?_⟩
      simp only [type?, entry?_rewire, Option.map_map]
      rfl
  | replace =>
      rw [entry?_setNode, if_neg (Ne.symm (List.ne_of_not_mem_cons hj))] at hf
      refine ⟨f, hf, rfl, rfl, fun s _ ↦ ?_⟩
      rw [type?, type?, entry?_setNode]
      split
      · cases g.entry? s <;> rfl
      · rfl
  | @detach id e he =>
      obtain ⟨-, f₀, hf₀, rfl⟩ := hw.exists_of_entry?_detach he hf
      have hread : id ∉ f₀.node.edges := fun hmem ↦
        hj (mem_consumers.2 (hw.mem_dependents he hf₀ hmem))
      refine ⟨f₀, hf₀, Node.clear_eq_self hread, rfl, fun s hs ↦ ?_⟩
      have hne : s ≠ id := by
        rintro rfl
        exact hread hs
      simp only [type?, hw.entry?_detach he, if_neg hne, Option.map_map]
      rfl

/-- A change of the wiring puts out of step only what it touches. -/
theorem Consistent.change (h : g.Consistent) (hw : g.WellFormed) {touched : List NodeId}
    (hc : Change g touched g') : g'.ConsistentBut touched := by
  intro j f hf hj
  obtain ⟨f₀, hf₀, hnode, htype, hread⟩ := hc.untouched hw hf hj
  rw [htype, hnode, infer_congr hread]
  exact h j f₀ hf₀

/-- A consistent graph stays consistent for as long as every propagation comes to rest. -/
theorem Consistent.steps (h : g.Consistent) (hw : g.WellFormed) (hg : Steps g g')
    (hs : g'.settled = true) : g'.Consistent := by
  induction hg with
  | refl => exact h
  | @step g₁ g₂ touched hg hc ih =>
      have hw₁ := hg.wellFormed hw
      have hs₁ : g₁.settled = true := hc.settled_eq ▸ ((settled_propagate_iff ..).1 hs).1
      exact ((ih hs₁).change hw₁ hc).propagate (hw₁.change hc) hs

/-- In a run of edits in which every propagation has come to rest, every node has the type inferred
from the nodes it reads, after each edit. -/
theorem consistent_of_settled {actions : List Action} (h : (after actions).settled = true)
    {done : List Action} (hd : done <+: actions) : (after done).Consistent := by
  obtain ⟨rest, rfl⟩ := hd
  have hs := (steps_after_append done rest).settled_of_settled h
  exact consistent_empty.steps .empty (steps_foldl_apply .empty done) hs

/-- A composite with its argument and body wired, a node wired to itself, a refused edit, a retyped
source and a removal. -/
def editedComposite : List Action :=
  [.constant (.float 1), .compositeUnary, .setEdge ⟨2⟩ .input (some ⟨0⟩), .unary .negate ⟨1⟩,
    .output ⟨3⟩, .setBody ⟨2⟩ ⟨4⟩, .binary .add ⟨2⟩ ⟨2⟩, .setEdge ⟨5⟩ .rhs (some ⟨5⟩),
    .setBody ⟨0⟩ ⟨4⟩, .setConstant ⟨0⟩ (.float2 ⟨1, 2⟩), .remove ⟨0⟩]

theorem consistent_editedComposite :
    (after editedComposite).settled = true ∧ (after editedComposite).Consistent := by
  have h : (after editedComposite).settled = true := by decide +kernel
  exact ⟨h, consistent_of_settled h (List.prefix_refl _)⟩

end FieldGraph.Graph
