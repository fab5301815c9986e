import FieldGraph.Proofs.Graph.Steps

/-!
# Who owns a placeholder

A composite made by an edit, copies of composites included, gets placeholders that are new and that
nothing else owns.  Every other node keeps the placeholders it has.  So only a node that is added by
hand can come to share a placeholder with a composite that is in the graph, or list one twice.
-/

namespace FieldGraph.Graph

variable {g g' : Graph} {p : NodeId}

/-- No two live nodes own the placeholder. -/
def OwnedOnce (g : Graph) (p : NodeId) : Prop :=
  ∀ ⦃id id' n n'⦄, g.node? id = some n → g.node? id' = some n' → p ∈ n.placeholders →
    p ∈ n'.placeholders → id = id'

/-- No live node lists the placeholder twice. -/
def ListedOnce (g : Graph) (p : NodeId) : Prop :=
  ∀ ⦃id n⦄, g.node? id = some n → n.placeholders.count p ≤ 1

/-- The node owns placeholders that are new since a former graph and that no other node owns. -/
structure OwnsNew (former g : Graph) (id : NodeId) (n : Node) : Prop where
  nodup : n.placeholders.Nodup
  later : ∀ p ∈ n.placeholders, former.capacity ≤ p.index
  sole : ∀ ⦃p id' n'⦄, p ∈ n.placeholders → g.node? id' = some n' → p ∈ n'.placeholders → id' = id

/-- Whatever has been added owns new placeholders. -/
def Apart (g g' : Graph) : Prop :=
  ∀ ⦃id n⦄, g'.node? id = some n → g.contains id ∨ OwnsNew g g' id n

theorem OwnsNew.of_nil {former : Graph} {id : NodeId} {n : Node} (h : n.placeholders = []) :
    OwnsNew former g id n where
  nodup := h ▸ .nil
  later p hp := by rw [h] at hp; cases hp
  sole p _ _ hp := by rw [h] at hp; cases hp

theorem WellFormed.index_lt_of_mem_placeholders (hw : g.WellFormed) {id : NodeId} {n : Node}
    (hn : g.node? id = some n) (hp : p ∈ n.placeholders) : p.index < g.capacity := by
  obtain ⟨e, he, rfl⟩ := node?_eq_some_iff.1 hn
  exact (hw.placeholders he hp).1

/-! ## Insertions -/

/-- The nodes after an insertion are the inserted one and those that were there. -/
theorem exists_node?_of_insert {n : Node} (hn : g.Admissible n) {id : NodeId} {m : Node}
    (hm : (g.insert n).2.node? id = some m) :
    (id = g.nextId ∧ m.outline = n.outline) ∨
      ∃ m₀, g.node? id = some m₀ ∧ m.outline = m₀.outline := by
  obtain ⟨m₁, hm₁, ho⟩ := (retyped_propagate (g.attach n) [g.nextId]).node? hm
  obtain ⟨e, he, rfl⟩ := node?_eq_some_iff.1 hm₁
  rw [entry?_attach hn.edges_live] at he
  split at he
  next hid =>
    cases he
    exact .inl ⟨hid, ho⟩
  · obtain ⟨f, hf, rfl⟩ := Option.map_eq_some_iff.1 he
    exact .inr ⟨f.node, node?_of_entry hf, ho⟩

namespace Apart

theorem refl (g : Graph) : Apart g g := fun _ _ hn ↦ .inl (contains_of_node? hn)

/-- A node with new placeholders of its own may be added. -/
theorem insert (h : Apart g g') {n : Node} (hn : g'.Admissible n) (hnodup : n.placeholders.Nodup)
    (hlater : ∀ p ∈ n.placeholders, g.capacity ≤ p.index)
    (hfree : ∀ p ∈ n.placeholders, p ∉ g'.placeholders) : Apart g (g'.insert n).2 := by
  intro id m hm
  rcases exists_node?_of_insert hn hm with ⟨rfl, ho⟩ | ⟨m₀, hm₀, ho⟩
  · have hp := Node.placeholders_eq_of_outline ho
    refine .inr ⟨hp ▸ hnodup, hp ▸ hlater, fun p id' n' hmem hn' hmem' ↦ ?_⟩
    rcases exists_node?_of_insert hn hn' with ⟨rfl, -⟩ | ⟨n₀, hn₀, ho'⟩
    · rfl
    · rw [Node.placeholders_eq_of_outline ho'] at hmem'
      exact absurd (mem_placeholders.2 ⟨id', n₀, hn₀, hmem'⟩) (hfree p (hp ▸ hmem))
  · have hp := Node.placeholders_eq_of_outline ho
    refine (h hm₀).imp_right fun hnew ↦ ⟨hp ▸ hnew.nodup, hp ▸ hnew.later, ?_⟩
    intro p id' n' hmem hn' hmem'
    rw [hp] at hmem
    rcases exists_node?_of_insert hn hn' with ⟨rfl, ho'⟩ | ⟨n₀, hn₀, ho'⟩
    · rw [Node.placeholders_eq_of_outline ho'] at hmem'
      exact absurd (mem_placeholders.2 ⟨id, m₀, hm₀, hmem⟩) (hfree p hmem')
    · exact hnew.sole hmem hn₀ (Node.placeholders_eq_of_outline ho' ▸ hmem')

theorem insert_of_nil (h : Apart g g') {n : Node} (hn : g'.Admissible n)
    (hp : n.placeholders = []) : Apart g (g'.insert n).2 :=
  h.insert hn (hp ▸ .nil) (fun p hmem ↦ by rw [hp] at hmem; cases hmem)
    fun p hmem ↦ by rw [hp] at hmem; cases hmem

/-- What is new after two growths owns placeholders that are new since the first. -/
theorem trans {g'' : Graph} (h : Apart g g') (h' : Apart g' g'') (hg : Grows g g')
    (hg' : Grows g' g'') (hw : g.WellFormed) : Apart g g'' := by
  have hw' := hg.wellFormed hw
  -- what was there after the first growth owns no placeholder of the second
  have former {id : NodeId} {n : Node} (hn : g''.node? id = some n) (hlive : g'.contains id) :
      ∃ m, g'.node? id = some m ∧ n.placeholders = m.placeholders := by
    obtain ⟨e, he⟩ := contains_iff.1 hlive
    obtain ⟨m, hm, ho⟩ := hg'.node? (node?_of_entry he)
    rw [hn] at hm
    cases hm
    exact ⟨_, node?_of_entry he, Node.placeholders_eq_of_outline ho⟩
  have apart {id id' p : NodeId} {n n' : Node} (hnew : OwnsNew g' g'' id n)
      (hlive : g'.contains id') (hn' : g''.node? id' = some n') (hp : p ∈ n.placeholders) :
      p ∉ n'.placeholders := by
    intro hp'
    obtain ⟨m, hm, heq⟩ := former hn' hlive
    have hlt := hw'.index_lt_of_mem_placeholders hm (heq ▸ hp')
    exact absurd (hnew.later p hp) (Nat.not_le.2 hlt)
  intro id n hn
  rcases h' hn with hlive | hnew
  · obtain ⟨m, hm, heq⟩ := former hn hlive
    refine (h hm).imp_right fun hown ↦ ⟨heq ▸ hown.nodup, heq ▸ hown.later, ?_⟩
    intro p id' n' hp hn' hp'
    rcases h' hn' with hlive' | hnew'
    · obtain ⟨m', hm', heq'⟩ := former hn' hlive'
      exact hown.sole (heq ▸ hp) hm' (heq' ▸ hp')
    · exact absurd hp (apart hnew' hlive hn hp')
  · exact .inr ⟨hnew.nodup, fun p hp ↦ hg.capacity_le.trans (hnew.later p hp), hnew.sole⟩

end Apart

theorem apart_addPlaceholders (hw : g.WellFormed) (index count : Nat) :
    Apart g (g.addPlaceholders index count).2 := by
  induction count generalizing g index with
  | zero => exact .refl g
  | succ count ih =>
      have hp := grows_addParameter g index .none
      have hone : Apart g (g.addParameter index .none).2 :=
        (Apart.refl g).insert_of_nil (admissible_parameter ..) rfl
      have hrest := ih (g := (g.addParameter index .none).2) (hp.wellFormed hw) (index + 1)
      exact hone.trans hrest hp (fresh_addPlaceholders _ (index + 1) count).grows hw

/-- Parameters own nothing. -/
theorem mem_placeholders_of_addPlaceholders (index count : Nat)
    (hp : p ∈ (g.addPlaceholders index count).2.placeholders) : p ∈ g.placeholders := by
  induction count generalizing g index with
  | zero => exact hp
  | succ count ih =>
      obtain ⟨id, n, hn, hmem⟩ := mem_placeholders.1 (ih _ hp)
      rcases exists_node?_of_insert (admissible_parameter g index .none) hn with ⟨-, ho⟩ | ⟨m, hm, ho⟩
      · rw [Node.placeholders_eq_of_outline ho] at hmem
        cases hmem
      · exact mem_placeholders.2 ⟨id, m, hm, Node.placeholders_eq_of_outline ho ▸ hmem⟩

/-- A composite that owns new parameters may be added, whatever has been added apart since. -/
theorem apart_insert_composite (hw : g.WellFormed) (count : Nat) {n : Node}
    (hg : Grows (g.addPlaceholders 0 count).2 g') (ha : Apart (g.addPlaceholders 0 count).2 g')
    (hn : g'.Admissible n) (hp : n.placeholders = (g.addPlaceholders 0 count).1) :
    Apart g (g'.insert n).2 := by
  have hf := fresh_addPlaceholders g 0 count
  refine ((apart_addPlaceholders hw 0 count).trans ha hf.grows hg hw).insert hn (hp ▸ hf.nodup)
    (hp ▸ hf.later) fun p hmem hp' ↦ ?_
  rw [hp] at hmem
  obtain ⟨f, hlive, -⟩ := hf.parameter p hmem _ .refl
  obtain ⟨id, m, hm, hpm⟩ := mem_placeholders.1 hp'
  rcases ha hm with hold | hnew
  -- what was there owns placeholders that were there before the new ones
  · obtain ⟨e, he⟩ := contains_iff.1 hold
    obtain ⟨m', hm', ho⟩ := hg.node? (node?_of_entry he)
    rw [hm] at hm'
    cases hm'
    rw [Node.placeholders_eq_of_outline ho] at hpm
    obtain ⟨id₀, n₀, hn₀, hp₀⟩ := mem_placeholders.1 (mem_placeholders_of_addPlaceholders 0 count
      (mem_placeholders.2 ⟨id, e.node, node?_of_entry he, hpm⟩))
    exact absurd (hf.later p hmem) (Nat.not_le.2 (hw.index_lt_of_mem_placeholders hn₀ hp₀))
  -- what is new owns placeholders that are newer
  · exact absurd (hnew.later p hpm) (Nat.not_le.2 (index_lt_of_entry hlive))

theorem apart_addCompositeUnary (hw : g.WellFormed) : Apart g g.addCompositeUnary.2 := by
  have hf := fresh_addPlaceholders g 0 1
  exact apart_insert_composite hw 1 .refl (.refl _)
    ⟨fun _ h ↦ (by cases h), trivial, fun p hp ↦ hf.parameter p hp _ .refl⟩ rfl

theorem apart_addCompositeBinary (hw : g.WellFormed) : Apart g g.addCompositeBinary.2 := by
  have hf := fresh_addPlaceholders g 0 2
  exact apart_insert_composite hw 2 .refl (.refl _)
    ⟨fun _ h ↦ (by cases h), trivial, fun p hp ↦ hf.parameter p hp _ .refl⟩ rfl

/-! ## Copies -/

/-- Copying a composite adds composites with new placeholders only. -/
def Copier.KeepsApart (copyInner : Copier) : Prop :=
  ∀ id g inner m copy, g.WellFormed → (∀ s ∈ inner.edges, g.contains s) → inner.isComposite →
    Renaming.Live m g → copyInner id g inner m = some copy → Apart g copy.2

theorem Apart.copyReader {copyInner : Copier} (hi : copyInner.Inserts) (ha : copyInner.KeepsApart)
    (hw : g.WellFormed) {state : Renaming × Graph} (hs : Copied g state) (h : Apart g state.2)
    (reads : NodeSet) (id : NodeId) : Apart g (copyReader copyInner reads state id).2 := by
  obtain ⟨m, g'⟩ := state
  obtain ⟨hg, hm⟩ := hs
  unfold Graph.copyReader
  simp only
  split
  · exact h
  · split
    · exact h
    next inner hinner =>
      obtain ⟨e, he, rfl⟩ := node?_eq_some_iff.1 hinner
      have hw' := hg.wellFormed hw
      have hedges : ∀ s ∈ e.node.edges, g'.contains s := fun s hs ↦ hw'.edges_live he hs
      split
      · exact h
      next copy g'' hcopy =>
        split at hcopy
        next hc =>
          exact h.trans (ha _ _ _ _ _ hw' hedges hc hm hcopy) hg
            (hi _ _ _ _ _ hw' hedges hc hm hcopy).1 hw
        next hc =>
          obtain ⟨rfl, rfl⟩ := Prod.mk.inj (Option.some.inj hcopy)
          have hc : e.node.isComposite = false := by simpa using hc
          refine h.insert_of_nil (admissible_mapEdges hc hm hedges (hw'.arity he)) ?_
          rw [Node.placeholders_mapEdges, Node.placeholders_of_not_composite hc]

theorem apart_copyBody {copyInner : Copier} (hi : copyInner.Inserts) (ha : copyInner.KeepsApart)
    (hw : g.WellFormed) {m : Renaming} (hm : m.Live g) (body : Edge) :
    Apart g (g.copyBody copyInner m body).2 := by
  cases body with
  | none => exact .refl g
  | some root =>
      exact (List.foldlRecOn (motive := fun state ↦ Copied g state ∧ Apart g state.2)
        (g.postOrder false root) (copyReader copyInner (g.readers m root)) (b := (m, g))
        ⟨⟨.refl, hm⟩, .refl g⟩ fun state hs id _ ↦
          ⟨hs.1.copyReader hi hw _ id, hs.2.copyReader hi ha hw hs.1 _ id⟩).2

theorem apart_copyComposite {available : List NodeId} (ha : (copier available).KeepsApart)
    {n : Node} {outer : Renaming} (hw : g.WellFormed) (hn : ∀ s ∈ n.edges, g.contains s)
    (hc : n.isComposite) (ho : outer.Live g) : Apart g (copyComposite available g n outer).2 := by
  have hf := fresh_addPlaceholders g 0 n.placeholders.length
  obtain ⟨hlive, hg, hadm⟩ := admissible_copyComposite (inserts_copier available) hw hn hc ho
  rw [copyComposite_eq]
  exact apart_insert_composite hw _ hg
    (apart_copyBody (inserts_copier available) ha (hf.grows.wellFormed hw) hlive _) hadm
    (placeholders_rebind hf.length_eq)

theorem keepsApart_copier (available : List NodeId) : (copier available).KeepsApart := by
  induction available using erase_induction with
  | step available ih =>
      intro id g inner m copy hw hedges hinner hm hcopy
      obtain ⟨hid, rfl⟩ := copier_eq_some_iff.1 hcopy
      exact apart_copyComposite (ih id hid) hw hedges hinner hm

/-! ## The other changes -/

/-- Every node of the second graph is in the first one too, with the placeholders it has, and is a
parameter in both or in neither. -/
def KeepsOwners (g g' : Graph) : Prop :=
  ∀ ⦃id n⦄, g'.node? id = some n → ∃ m, g.node? id = some m ∧ n.placeholders = m.placeholders ∧
    n.isParameter = m.isParameter

namespace KeepsOwners

theorem refl (g : Graph) : KeepsOwners g g := fun _ n hn ↦ ⟨n, hn, rfl, rfl⟩

theorem trans {g'' : Graph} (h : KeepsOwners g g') (h' : KeepsOwners g' g'') :
    KeepsOwners g g'' := fun _ _ hn ↦ by
  obtain ⟨m', hm', heq', hpar'⟩ := h' hn
  obtain ⟨m, hm, heq, hpar⟩ := h hm'
  exact ⟨m, hm, heq'.trans heq, hpar'.trans hpar⟩

theorem of_retyped (h : Retyped g g') : KeepsOwners g g' := fun _ _ hn ↦ by
  obtain ⟨m, hm, ho⟩ := h.node? hn
  exact ⟨m, hm, Node.placeholders_eq_of_outline ho, Node.isParameter_eq_of_outline ho⟩

theorem propagate (h : KeepsOwners g g') (touched : List NodeId) :
    KeepsOwners g (g'.propagate touched) := h.trans (.of_retyped (retyped_propagate g' touched))

theorem ownedOnce (h : KeepsOwners g g') (hp : g.OwnedOnce p) : g'.OwnedOnce p :=
  fun id id' n n' hn hn' hmem hmem' ↦ by
    obtain ⟨m, hm, heq, -⟩ := h hn
    obtain ⟨m', hm', heq', -⟩ := h hn'
    exact hp hm hm' (heq ▸ hmem) (heq' ▸ hmem')

end KeepsOwners

theorem keepsOwners_rewire {id : NodeId} {port : Port} {n n' : Node} {former source : Edge}
    (hn : g.node? id = some n) (hn' : n.setPort? source port = some n') :
    KeepsOwners g (g.rewire id n' former source) := by
  intro j m hm
  obtain ⟨e, he, rfl⟩ := node?_eq_some_iff.1 hm
  rw [entry?_rewire] at he
  obtain ⟨f, hf, rfl⟩ := Option.map_eq_some_iff.1 he
  refine ⟨f.node, node?_of_entry hf, ?_⟩
  simp only
  split
  next hj =>
    subst hj
    rw [node?_of_entry hf] at hn
    cases hn
    exact Node.setPort?_fields hn'
  · exact ⟨rfl, rfl⟩

theorem keepsOwners_setNode {id : NodeId} {n n' : Node} (hn : g.node? id = some n)
    (hr : n.Replaceable n') : KeepsOwners g (g.setNode id n') := by
  intro j m hm
  obtain ⟨e, he, rfl⟩ := node?_eq_some_iff.1 hm
  rw [entry?_setNode] at he
  split at he
  next hj =>
    subst hj
    obtain ⟨f, hf, rfl⟩ := Option.map_eq_some_iff.1 he
    exact ⟨n, hn, hr.placeholders_eq, hr.isParameter_eq⟩
  · exact ⟨e.node, node?_of_entry he, rfl, rfl⟩

theorem keepsOwners_detach (hw : g.WellFormed) {id : NodeId} {e : Entry}
    (he : g.entry? id = some e) : KeepsOwners g (g.detach id e) := by
  intro j m hm
  obtain ⟨f, hf, rfl⟩ := node?_eq_some_iff.1 hm
  obtain ⟨-, f₀, hf₀, rfl⟩ := hw.exists_of_entry?_detach he hf
  exact ⟨f₀.node, node?_of_entry hf₀, Node.placeholders_mapEdges .., Node.isParameter_mapEdges ..⟩

/-! ## Whole edits -/

/-- A node of the graph after an edit was there with the placeholders it has, or has been added by
hand, or owns new placeholders. -/
inductive Origin (g g' : Graph) (a : Action) (id : NodeId) (n : Node) : Prop
  | kept {m : Node} (hm : g.node? id = some m) (hp : n.placeholders = m.placeholders)
  | added {m : Node} (ha : a = .add m) (hm : g.Admissible m) (hid : id = g.nextId)
      (hp : n.placeholders = m.placeholders)
  | own (h : OwnsNew g g' id n)

theorem KeepsOwners.origin (h : KeepsOwners g g') (a : Action) {id : NodeId} {n : Node}
    (hn : g'.node? id = some n) : Origin g g' a id n := by
  obtain ⟨m, hm, hp, -⟩ := h hn
  exact .kept hm hp

theorem Apart.origin (h : Apart g g') (hg : Grows g g') (a : Action) {id : NodeId} {n : Node}
    (hn : g'.node? id = some n) : Origin g g' a id n := by
  rcases h hn with hlive | hnew
  · obtain ⟨e, he⟩ := contains_iff.1 hlive
    obtain ⟨m, hm, ho⟩ := hg.node? (node?_of_entry he)
    rw [hn] at hm
    cases hm
    exact .kept (node?_of_entry he) (Node.placeholders_eq_of_outline ho)
  · exact .own hnew

theorem keepsOwners_setEdge {id : NodeId} {port : Port} {source : Edge}
    (h : g.setEdge id port source = .ok g') : KeepsOwners g g' := by
  obtain ⟨n, former, n', -, hn, -, hn', rfl⟩ := exists_rewire_of_setEdge h
  exact (keepsOwners_rewire hn hn').propagate _

theorem keepsOwners_revise {id : NodeId} {kind : String} {f : Node → Option Node}
    (hf : ∀ n n', f n = some n' → n.Replaceable n') (h : g.revise id kind f = .ok g') :
    KeepsOwners g g' := by
  obtain ⟨n, n', hn, hn', rfl⟩ := exists_setNode_of_revise h
  exact (keepsOwners_setNode hn (hf n n' hn')).propagate _

theorem keepsOwners_takeOut (hw : g.WellFormed) {id : NodeId} {e : Entry}
    (he : g.entry? id = some e) : KeepsOwners g (g.takeOut id e) :=
  (keepsOwners_detach hw he).propagate _

theorem keepsOwners_dropPlaceholder (hw : g.WellFormed) (q : NodeId) :
    KeepsOwners g (g.dropPlaceholder q) := by
  unfold dropPlaceholder
  split
  · exact .refl g
  · split
    next e he => exact keepsOwners_takeOut hw he
    · exact .refl g

theorem keepsOwners_remove (hw : g.WellFormed) {id : NodeId} {r : Node × Graph}
    (h : g.remove id = .ok r) : KeepsOwners g r.2 := by
  unfold remove at h
  split at h
  · cases h
  next e he =>
    cases h
    refine (List.foldlRecOn (motive := fun g' ↦ Steps g g' ∧ KeepsOwners g g') _ _
      ⟨steps_takeOut he, keepsOwners_takeOut hw he⟩ fun g' h q _ ↦ ?_).2
    exact ⟨h.1.trans (steps_dropPlaceholder g' q),
      h.2.trans (keepsOwners_dropPlaceholder (h.1.wellFormed hw) q)⟩

theorem origin_add {a : Action} {n : Node} {r : NodeId × Graph} (h : g.add n = .ok r)
    (ha : n.placeholders ≠ [] → a = .add n) {id : NodeId} {m : Node} (hm : r.2.node? id = some m) :
    Origin g r.2 a id m := by
  obtain ⟨hn, rfl⟩ := add_eq_ok_iff.1 h
  rcases exists_node?_of_insert hn hm with ⟨hid, ho⟩ | ⟨m₀, hm₀, ho⟩
  · have hp := Node.placeholders_eq_of_outline ho
    by_cases hnil : n.placeholders = []
    · exact .own (.of_nil (hp.trans hnil))
    · exact .added (ha hnil) hn hid hp
  · exact .kept hm₀ (Node.placeholders_eq_of_outline ho)

theorem apart_duplicate (hw : g.WellFormed) {id : NodeId} {n : Node} (hn : g.node? id = some n)
    (hc : n.isComposite) {r : NodeId × Graph} (h : g.duplicate id = .ok r) : Apart g r.2 := by
  obtain ⟨e, he, rfl⟩ := node?_eq_some_iff.1 hn
  rw [duplicate, hn] at h
  simp only [hc, if_true] at h
  cases h
  exact apart_copyComposite (keepsApart_copier _) hw (fun s hs ↦ hw.edges_live he hs) hc
    (Renaming.live_empty g)

theorem exists_of_map_snd {α : Type} {x : Except GraphError (α × Graph)}
    (h : x.map Prod.snd = .ok g') : ∃ r, x = .ok r ∧ r.2 = g' := by
  cases x with
  | error e => cases h
  | ok r =>
      cases h
      exact ⟨r, rfl, rfl⟩

/-- Where the owners of placeholders come from. -/
theorem origin_perform (hw : g.WellFormed) {a : Action} (ha : a.perform g = .ok g') {id : NodeId}
    {n : Node} (hn : g'.node? id = some n) : Origin g g' a id n := by
  cases a with
  | add m =>
      obtain ⟨r, hr, rfl⟩ := exists_of_map_snd ha
      exact origin_add hr (fun _ ↦ rfl) hn
  | unary | binary | construct | output =>
      obtain ⟨r, hr, rfl⟩ := exists_of_map_snd ha
      exact origin_add hr (fun hne ↦ absurd rfl hne) hn
  | constant v =>
      obtain rfl := Except.ok.inj ha
      have hv : g.Admissible (.constant v) := .of_edges (fun _ hs ↦ by cases hs) trivial rfl
      exact ((Apart.refl g).insert_of_nil hv rfl).origin (grows_insert hv) _ hn
  | parameter index declared =>
      obtain rfl := Except.ok.inj ha
      exact ((Apart.refl g).insert_of_nil (admissible_parameter ..) rfl).origin
        (grows_addParameter g index declared) _ hn
  | compositeUnary =>
      obtain rfl := Except.ok.inj ha
      exact (apart_addCompositeUnary hw).origin (grows_addCompositeUnary g) _ hn
  | compositeBinary =>
      obtain rfl := Except.ok.inj ha
      exact (apart_addCompositeBinary hw).origin (grows_addCompositeBinary g) _ hn
  | duplicate c =>
      obtain ⟨r, hr, rfl⟩ := exists_of_map_snd ha
      cases hm : g.node? c with
      | none => simp [duplicate, hm] at hr
      | some m =>
          by_cases hc : m.isComposite
          · exact (apart_duplicate hw hm hc hr).origin (grows_duplicate hw hr) _ hn
          · rw [duplicate, hm] at hr
            simp only [hc, if_false, Bool.false_eq_true] at hr
            refine origin_add hr (fun hne ↦ absurd ?_ hne) hn
            exact Node.placeholders_of_not_composite (by simpa using hc)
  | remove c =>
      obtain ⟨r, hr, rfl⟩ := exists_of_map_snd ha
      exact (keepsOwners_remove hw hr).origin _ hn
  | setEdge c port source => exact (keepsOwners_setEdge ha).origin _ hn
  | disconnect c port =>
      simp only [Action.perform, disconnect] at ha
      exact (keepsOwners_setEdge ha).origin _ hn
  | setBody c body =>
      simp only [Action.perform, setBody] at ha
      exact (keepsOwners_setEdge ha).origin _ hn
  | setConstant | setUnaryOp | setBinaryOp | setDeclared =>
      simp only [Action.perform, setConstant, setUnaryOp, setBinaryOp, setDeclared] at ha
      refine (keepsOwners_revise (fun m m' hm ↦ ?_) ha).origin _ hn
      cases m <;> cases hm
      exact ⟨rfl, rfl, rfl, fun harity ↦ harity⟩

/-- The edit adds a node by hand over a placeholder that is in use. -/
def Action.TakesOver (g : Graph) (p : NodeId) : Action → Prop
  | add n => (g.add n).isOk ∧ p ∈ n.placeholders ∧ p ∈ g.placeholders
  | _ => False

/-- The edit adds a node by hand that lists the placeholder twice. -/
def Action.ListsTwice (g : Graph) (p : NodeId) : Action → Prop
  | add n => (g.add n).isOk ∧ 1 < n.placeholders.count p
  | _ => False

instance (g : Graph) (p : NodeId) (a : Action) : Decidable (a.TakesOver g p) := by
  cases a <;> unfold Action.TakesOver <;> infer_instance

instance (g : Graph) (p : NodeId) (a : Action) : Decidable (a.ListsTwice g p) := by
  cases a <;> unfold Action.ListsTwice <;> infer_instance

theorem isOk_add {n : Node} (hn : g.Admissible n) : (g.add n).isOk := by
  rw [add_eq_ok_iff.2 ⟨hn, rfl⟩]
  rfl

theorem OwnedOnce.perform (h : g.OwnedOnce p) (hw : g.WellFormed) {a : Action}
    (ha : a.perform g = .ok g') (ht : ¬ a.TakesOver g p) : g'.OwnedOnce p := by
  intro id id' n n' hn hn' hp hp'
  -- a node added by hand does not list what is in use
  have free {m k : Node} {j : NodeId} (ha : a = .add m) (hm : g.Admissible m)
      (hk : g.node? j = some k) (hp : p ∈ m.placeholders) : p ∉ k.placeholders := fun hpk ↦
    ht (ha ▸ ⟨isOk_add hm, hp, mem_placeholders.2 ⟨j, k, hk, hpk⟩⟩)
  rcases origin_perform hw ha hn with ⟨hm, heq⟩ | ⟨ha₁, hm, hid, heq⟩ | hown
  · rcases origin_perform hw ha hn' with ⟨hm', heq'⟩ | ⟨ha', hm', -, heq'⟩ | hown'
    · exact h hm hm' (heq ▸ hp) (heq' ▸ hp')
    · exact absurd (heq ▸ hp) (free ha' hm' hm (heq' ▸ hp'))
    · exact hown'.sole hp' hn hp
  · rcases origin_perform hw ha hn' with ⟨hm', heq'⟩ | ⟨-, -, hid', -⟩ | hown'
    · exact absurd (heq' ▸ hp') (free ha₁ hm hm' (heq ▸ hp))
    · exact hid.trans hid'.symm
    · exact hown'.sole hp' hn hp
  · exact (hown.sole hp hn' hp').symm

theorem ListedOnce.perform (h : g.ListedOnce p) (hw : g.WellFormed) {a : Action}
    (ha : a.perform g = .ok g') (ht : ¬ a.ListsTwice g p) : g'.ListedOnce p := by
  intro id n hn
  rcases origin_perform hw ha hn with ⟨hm, heq⟩ | ⟨rfl, hm, -, heq⟩ | hown
  · exact heq ▸ h hm
  · by_contra hdup
    exact ht ⟨isOk_add hm, heq ▸ Nat.lt_of_not_le hdup⟩
  · exact List.nodup_iff_count_le_one.1 hown.nodup p

end FieldGraph.Graph
