import FieldGraph.Proofs.Graph.Walks
import FieldGraph.Proofs.Graph.WellFormed

/-!
# Growth

Adding a node, adding a composite with its placeholders and copying a composite all come down to
insertions of admissible nodes.  What one insertion preserves is preserved by all of them.
-/

namespace FieldGraph.Graph

open Relation

/-- The second graph is the first one after insertions of admissible nodes. -/
inductive Grows (g : Graph) : Graph → Prop
  | refl : Grows g g
  | insert {g' : Graph} {n : Node} : Grows g g' → g'.Admissible n → Grows g (g'.insert n).2

variable {g g' : Graph}

theorem Grows.trans {g'' : Graph} (h : Grows g g') (h' : Grows g' g'') : Grows g g'' := by
  induction h' with
  | refl => exact h
  | insert _ hn ih => exact .insert ih hn

theorem WellFormed.insert (h : g.WellFormed) {n : Node} (hn : g.Admissible n) :
    (g.insert n).2.WellFormed := (h.attach hn).propagate _

theorem Grows.wellFormed (hg : Grows g g') (h : g.WellFormed) : g'.WellFormed := by
  induction hg with
  | refl => exact h
  | insert _ hn ih => exact ih.insert hn

/-! ## What insertions keep -/

/-- The inserted node is live and has the outline it was given. -/
theorem exists_node?_insert {n : Node} (hn : g.Admissible n) :
    ∃ m, (g.insert n).2.node? (g.insert n).1 = some m ∧ m.outline = n.outline := by
  have hr := retyped_propagate (g.attach n) [g.nextId]
  have hnew := node?_of_entry (entry?_attach_nextId hn.edges_live)
  obtain ⟨m, hm, ho⟩ := hr.symm.node? hnew
  exact ⟨m, hm, ho.symm⟩

theorem node?_insert {n : Node} (hn : g.Admissible n) (hp : n.isParameter = false) :
    (g.insert n).2.node? (g.insert n).1 = some n := by
  obtain ⟨m, hm, ho⟩ := exists_node?_insert hn
  rwa [Node.eq_of_outline ho hp] at hm

theorem contains_insert {n : Node} (hn : g.Admissible n) :
    (g.insert n).2.contains (g.insert n).1 := by
  obtain ⟨m, hm, -⟩ := exists_node?_insert hn
  obtain ⟨e, he, -⟩ := node?_eq_some_iff.1 hm
  exact contains_of_entry he

theorem capacity_insert (g : Graph) (n : Node) : (g.insert n).2.capacity = g.capacity + 1 :=
  (retyped_propagate (g.attach n) [g.nextId]).capacity_eq.trans (attach_fields g n).1

theorem Grows.capacity_le (hg : Grows g g') : g.capacity ≤ g'.capacity := by
  induction hg with
  | refl => exact Nat.le_refl _
  | insert _ _ ih =>
      rw [capacity_insert]
      exact Nat.le_succ_of_le ih

/-- Nodes that were live keep their outline. -/
theorem Grows.node? (hg : Grows g g') {id : NodeId} {n : Node} (h : g.node? id = some n) :
    ∃ m, g'.node? id = some m ∧ m.outline = n.outline := by
  induction hg with
  | refl => exact ⟨n, h, rfl⟩
  | @insert g' k hg hk ih =>
      obtain ⟨m, hm, ho⟩ := ih
      obtain ⟨e, he, rfl⟩ := node?_eq_some_iff.1 hm
      have hold := node?_of_entry (entry?_attach_of_contains hk.edges_live he)
      obtain ⟨m, hm', ho'⟩ := (retyped_propagate (g'.attach k) [g'.nextId]).symm.node? hold
      exact ⟨m, hm', ho'.symm.trans ho⟩

theorem Grows.contains (hg : Grows g g') {id : NodeId} (h : g.contains id) : g'.contains id := by
  obtain ⟨e, he⟩ := contains_iff.1 h
  obtain ⟨m, hm, -⟩ := hg.node? (node?_of_entry he)
  obtain ⟨e', he', -⟩ := node?_eq_some_iff.1 hm
  exact contains_of_entry he'

/-- Nodes that were live stay as they are, except for the types that parameters declare. -/
theorem Grows.node?_eq (hg : Grows g g') {id : NodeId} {n : Node} (h : g.node? id = some n)
    (hn : n.isParameter = false) : g'.node? id = some n := by
  obtain ⟨m, hm, ho⟩ := hg.node? h
  rwa [Node.eq_of_outline ho hn] at hm

theorem Grows.edges_eq (hg : Grows g g') {id : NodeId} (h : g.contains id) :
    g'.edges id = g.edges id := by
  obtain ⟨e, he⟩ := contains_iff.1 h
  obtain ⟨m, hm, ho⟩ := hg.node? (node?_of_entry he)
  rw [edges_of_node? hm, edges_of_node? (node?_of_entry he), Node.edges_eq_of_outline ho]

theorem WellFormed.contains_of_reads (h : g.WellFormed) {a b : NodeId} (hr : g.Reads a b) :
    g.contains b := by
  obtain ⟨n, hn, hmem⟩ := exists_node_of_mem_edges hr
  obtain ⟨e, he, rfl⟩ := node?_eq_some_iff.1 hn
  exact h.edges_live he hmem

/-- A live node leads to live nodes only. -/
theorem WellFormed.contains_of_reaches (h : g.WellFormed) {a b : NodeId} (ha : g.contains a)
    (hr : ReflTransGen g.Reads a b) : g.contains b := by
  rcases hr.cases_tail with rfl | ⟨c, -, hcb⟩
  · exact ha
  · exact h.contains_of_reads hcb

/-- A placeholder reads nothing. -/
theorem WellFormed.edges_of_mem_placeholders (h : g.WellFormed) {id p : NodeId} {n : Node}
    (hn : g.node? id = some n) (hp : p ∈ n.placeholders) : g.edges p = [] := by
  obtain ⟨e, he, rfl⟩ := node?_eq_some_iff.1 hn
  cases hf : g.entry? p with
  | none => simp [edges, node?, hf]
  | some f =>
      obtain ⟨index, t, hnode⟩ :=
        Node.exists_parameter_of_isParameter ((h.placeholders he hp).2 f hf)
      rw [edges_of_node? (node?_of_entry hf), hnode]
      rfl

/-- Nodes that were live lead where they led before. -/
theorem Grows.reaches_iff (hg : Grows g g') (h : g.WellFormed) {a b : NodeId}
    (ha : g.contains a) : ReflTransGen g'.Reads a b ↔ ReflTransGen g.Reads a b := by
  constructor <;> intro hr
  · induction hr with
    | refl => exact .refl
    | tail _ hbc ih =>
        refine ih.tail ?_
        rwa [Reads, hg.edges_eq (h.contains_of_reaches ha ih)] at hbc
  · induction hr with
    | refl => exact .refl
    | tail hab hbc ih =>
        refine ih.tail ?_
        rwa [Reads, hg.edges_eq (h.contains_of_reaches ha hab)]

/-- Nodes that were live lead to themselves only if they did before. -/
theorem Grows.transGen_iff (hg : Grows g g') (h : g.WellFormed) {a b : NodeId}
    (ha : g.contains a) : TransGen g'.Reads a b ↔ TransGen g.Reads a b := by
  rw [TransGen.head'_iff, TransGen.head'_iff]
  refine exists_congr fun c ↦ ?_
  rw [Reads, Reads, hg.edges_eq ha]
  exact and_congr_right fun hac ↦ hg.reaches_iff h (h.contains_of_reads hac)

/-- A node is admissible if it reads live nodes and has no placeholders to check. -/
theorem Admissible.of_edges {n : Node} (h : ∀ s ∈ n.edges, g.contains s) (ha : n.ArityOk)
    (hp : n.placeholders = []) : g.Admissible n :=
  ⟨h, ha, fun p hmem ↦ by rw [hp] at hmem; cases hmem⟩

theorem admissible_parameter (g : Graph) (index : Nat) (t : ValueType) :
    g.Admissible (.parameter index t) :=
  .of_edges (fun _ h ↦ by cases h) trivial rfl

/-! ## The edits that add nodes -/

theorem checkEdges_eq_ok_iff {n : Node} :
    g.checkEdges n = .ok () ↔ ∀ s ∈ n.edges, g.contains s := by
  unfold checkEdges
  cases h : n.edges.find? fun s ↦ !g.contains s with
  | none => simpa using h
  | some s =>
      have hs := List.find?_some h
      have hmem := List.mem_of_find?_eq_some h
      simp only [reduceCtorEq, false_iff]
      exact fun hall ↦ by simp [hall s hmem] at hs

theorem checkPlaceholder_eq_ok_iff {p : NodeId} :
    g.checkPlaceholder p = .ok () ↔ ∃ f, g.entry? p = some f ∧ f.node.isParameter := by
  unfold checkPlaceholder node?
  cases g.entry? p with
  | none => simp
  | some f => rcases f with ⟨n, t, d⟩; cases n <;> simp [Node.isParameter]

theorem checkArity_eq_ok_iff {n : Node} : checkArity n = .ok () ↔ n.ArityOk := by
  cases n with
  | construct slots => simp only [checkArity, Node.ArityOk]; split <;> simp_all
  | _ => simp [checkArity, Node.ArityOk]

private theorem forM_eq_ok_iff {f : NodeId → Except GraphError Unit} {l : List NodeId} :
    l.forM f = .ok () ↔ ∀ a ∈ l, f a = .ok () := by
  induction l with
  | nil => simp [pure, Except.pure]
  | cons a l ih =>
      change (f a >>= fun _ ↦ l.forM f) = .ok () ↔ _
      rw [List.forall_mem_cons, ← ih]
      cases f a <;> simp [bind, Except.bind]

/-- Exactly the admissible nodes may be added. -/
theorem add_eq_ok_iff {n : Node} {r : NodeId × Graph} :
    g.add n = .ok r ↔ g.Admissible n ∧ r = g.insert n := by
  constructor
  · intro h
    unfold add at h
    obtain ⟨⟨⟩, he, h⟩ := except_bind_eq_ok h
    obtain ⟨⟨⟩, hp, h⟩ := except_bind_eq_ok h
    obtain ⟨⟨⟩, ha, h⟩ := except_bind_eq_ok h
    cases h
    exact ⟨⟨checkEdges_eq_ok_iff.1 he, checkArity_eq_ok_iff.1 ha,
      fun p hmem ↦ checkPlaceholder_eq_ok_iff.1 (forM_eq_ok_iff.1 hp p hmem)⟩, rfl⟩
  · rintro ⟨⟨he, ha, hp⟩, rfl⟩
    have hp' : n.placeholders.forM g.checkPlaceholder = .ok () :=
      forM_eq_ok_iff.2 fun p hmem ↦ checkPlaceholder_eq_ok_iff.2 (hp p hmem)
    rw [add, checkEdges_eq_ok_iff.2 he, hp', checkArity_eq_ok_iff.2 ha]
    rfl

theorem grows_insert {n : Node} (hn : g.Admissible n) : Grows g (g.insert n).2 :=
  .insert .refl hn

theorem grows_addParameter (g : Graph) (index : Nat) (t : ValueType) :
    Grows g (g.addParameter index t).2 := grows_insert (admissible_parameter g index t)

/-- A parameter just added is a live parameter ever after. -/
theorem exists_parameter_of_grows {index : Nat} {t : ValueType}
    (hg : Grows (g.addParameter index t).2 g') :
    ∃ f, g'.entry? (g.addParameter index t).1 = some f ∧ f.node.isParameter := by
  obtain ⟨m, hm, ho⟩ := exists_node?_insert (admissible_parameter g index t)
  obtain ⟨m', hm', ho'⟩ := hg.node? hm
  obtain ⟨f, hf, rfl⟩ := node?_eq_some_iff.1 hm'
  refine ⟨f, hf, ?_⟩
  rw [Node.isParameter_eq_of_outline (ho'.trans ho)]
  rfl

theorem grows_addCompositeUnary (g : Graph) : Grows g g.addCompositeUnary.2 := by
  have hp := grows_addParameter g 0 .none
  refine hp.insert ⟨fun _ h ↦ (by cases h), trivial, fun p hmem ↦ ?_⟩
  rw [List.mem_singleton.1 hmem]
  exact exists_parameter_of_grows .refl

theorem grows_addCompositeBinary (g : Graph) : Grows g g.addCompositeBinary.2 := by
  have hp := grows_addParameter g 0 .none
  have hq := grows_addParameter (g.addParameter 0 .none).2 1 .none
  refine (hp.trans hq).insert ⟨fun _ h ↦ (by cases h), trivial, fun p hmem ↦ ?_⟩
  rcases List.mem_cons.1 hmem with rfl | hmem
  · exact exists_parameter_of_grows hq
  · rw [List.mem_singleton.1 hmem]
    exact exists_parameter_of_grows .refl

end FieldGraph.Graph
