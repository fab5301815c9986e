import FieldGraph.Proofs.Graph.Growth

/-!
# Copying only adds

The copy of a composite is built by insertions of admissible nodes: placeholders of its own, copies
of the nodes of its body with their edges renamed, and the composite itself.
-/

namespace FieldGraph.Graph

/-- All stand-ins are live. -/
def Renaming.Live (m : Renaming) (g : Graph) : Prop :=
  ∀ k v, m.get? k = some v → g.contains v

variable {g g' : Graph}

namespace Renaming

variable {m : Renaming}

theorem live_empty (g : Graph) : Live NodeMap.empty g := fun _ _ h ↦ by simp at h

theorem Live.grows (h : m.Live g) (hg : Grows g g') : m.Live g' :=
  fun k v hv ↦ hg.contains (h k v hv)

theorem Live.insert (h : m.Live g) {k v : NodeId} (hv : g.contains v) :
    Live (NodeMap.insert m k v) g := by
  intro k' v' hget
  rw [NodeMap.get?_insert] at hget
  split at hget
  · cases hget
    exact hv
  · exact h k' v' hget

theorem Live.bind (h : m.Live g) {old new : List NodeId} (hnew : ∀ v ∈ new, g.contains v) :
    (m.bind old new).Live g := by
  refine List.foldlRecOn (motive := fun m : Renaming ↦ m.Live g) _ _ h fun m hm p hp ↦ hm.insert ?_
  exact hnew _ (List.of_mem_zip hp).2

/-- A renamed edge leads to a stand-in, or where it led before. -/
theorem Live.edge (h : m.Live g) {e : Edge} (he : ∀ s ∈ e, g.contains s) :
    ∀ s ∈ m.edge e, g.contains s := by
  intro s hs
  cases e with
  | none => cases hs
  | some t =>
      cases hs
      cases hget : m.get? t with
      | none => simpa [hget] using he t rfl
      | some v => simpa [hget] using h t v hget

end Renaming

/-- The edges of a composite with another body. -/
theorem mem_edges_rebind {m : Renaming} {ps : List NodeId} {body : Edge} {n : Node} {s : NodeId}
    (h : s ∈ (rebind m ps body n).edges) :
    s ∈ body ∨ ∃ t ∈ n.edges, m.edge (some t) = some s := by
  have edge {e : Edge} (hs : s ∈ (m.edge e).toList) : ∃ t ∈ e.toList, m.edge (some t) = some s := by
    cases e with
    | none => cases hs
    | some t => exact ⟨t, by simp, by simpa using hs⟩
  cases n with
  | compositeUnary | compositeBinary =>
      simp only [rebind, Node.edges, List.mem_append, Option.mem_toList] at h ⊢
      grind
  | _ => exact .inr (Node.mem_edges_mapEdges h rfl)

theorem placeholders_rebind {m : Renaming} {ps : List NodeId} {body : Edge} {n : Node}
    (h : ps.length = n.placeholders.length) : (rebind m ps body n).placeholders = ps := by
  cases n with
  | compositeUnary =>
      match ps, h with
      | [p], _ => rfl
  | compositeBinary =>
      match ps, h with
      | [p, q], _ => rfl
  | _ =>
      rw [List.length_eq_zero_iff.1 h]
      rfl

theorem sources_rebind {m : Renaming} {ps : List NodeId} {body : Edge} {n : Node} :
    (rebind m ps body n).sources = n.sources.map m.edge := by cases n <;> rfl

theorem body?_rebind {m : Renaming} {ps : List NodeId} {body : Edge} {n : Node}
    (h : n.isComposite) : (rebind m ps body n).body? = some body := by
  cases n <;> first | rfl | cases h

theorem isComposite_rebind {m : Renaming} {ps : List NodeId} {body : Edge} {n : Node} :
    (rebind m ps body n).isComposite = n.isComposite := by cases n <;> rfl

theorem isParameter_rebind {m : Renaming} {ps : List NodeId} {body : Edge} {n : Node} :
    (rebind m ps body n).isParameter = n.isParameter := by cases n <;> rfl

theorem arityOk_rebind {m : Renaming} {ps : List NodeId} {body : Edge} {n : Node}
    (h : n.isComposite) : (rebind m ps body n).ArityOk := by
  cases n <;> first | exact trivial | cases h

/-- A copy of an operation may be added once what it reads is live. -/
theorem admissible_mapEdges {m : Renaming} {n : Node} (hc : n.isComposite = false) (hm : m.Live g)
    (hn : ∀ s ∈ n.edges, g.contains s) (ha : n.ArityOk) : g.Admissible (n.mapEdges m.edge) := by
  refine .of_edges (fun s hs ↦ ?_) (Node.arityOk_mapEdges.2 ha) ?_
  · obtain ⟨t, ht, hts⟩ := Node.mem_edges_mapEdges hs rfl
    exact hm.edge (fun s hs ↦ by cases hs; exact hn t ht) s hts
  · rw [Node.placeholders_mapEdges]
    exact Node.placeholders_of_not_composite hc

/-- A copy of a composite may be added once its placeholders and what it reads are live. -/
theorem admissible_rebind {m : Renaming} {ps : List NodeId} {body : Edge} {n : Node}
    (hc : n.isComposite) (hm : m.Live g) (hn : ∀ s ∈ n.edges, g.contains s)
    (hbody : ∀ s ∈ body, g.contains s) (hlen : ps.length = n.placeholders.length)
    (hps : ∀ p ∈ ps, ∃ f, g.entry? p = some f ∧ f.node.isParameter) :
    g.Admissible (rebind m ps body n) where
  edges_live s hs := by
    rcases mem_edges_rebind hs with hs | ⟨t, ht, hts⟩
    · exact hbody s hs
    · refine hm.edge (e := some t) ?_ s hts
      rintro s ⟨⟩
      exact hn t ht
  arity := arityOk_rebind hc
  placeholders := by rwa [placeholders_rebind hlen]

/-- Placeholders for a copy are new parameters that differ from each other. -/
structure Fresh (g : Graph) (count : Nat) (fresh : List NodeId × Graph) : Prop where
  grows : Grows g fresh.2
  length_eq : fresh.1.length = count
  later : ∀ p ∈ fresh.1, g.capacity ≤ p.index
  nodup : fresh.1.Nodup
  parameter : ∀ p ∈ fresh.1, ∀ g', Grows fresh.2 g' → ∃ f, g'.entry? p = some f ∧ f.node.isParameter

theorem Fresh.contains {count : Nat} {fresh : List NodeId × Graph} (h : Fresh g count fresh) :
    ∀ p ∈ fresh.1, fresh.2.contains p := fun p hp ↦ by
  obtain ⟨f, hf, -⟩ := h.parameter p hp _ .refl
  exact contains_of_entry hf

theorem fresh_addPlaceholders (g : Graph) (index count : Nat) :
    Fresh g count (g.addPlaceholders index count) := by
  induction count generalizing g index with
  | zero =>
      refine ⟨.refl, rfl, ?_, .nil, ?_⟩ <;> exact fun _ h ↦ by cases h
  | succ count ih =>
      obtain ⟨hg, hlen, hlater, hnodup, hpar⟩ := ih (g.addParameter index .none).2 (index + 1)
      have hcap : (g.addParameter index .none).2.capacity = g.capacity + 1 := capacity_insert ..
      rw [hcap] at hlater
      constructor
      case grows => exact (grows_addParameter g index .none).trans hg
      case length_eq => exact congrArg Nat.succ hlen
      case later =>
        intro p hp
        rcases List.mem_cons.1 hp with rfl | hp
        · exact Nat.le_refl _
        · exact Nat.le_of_succ_le (hlater p hp)
      case nodup =>
        exact List.nodup_cons.2 ⟨fun hmem ↦ Nat.lt_irrefl _ (hlater _ hmem), hnodup⟩
      case parameter =>
        intro p hp g' hg'
        rcases List.mem_cons.1 hp with rfl | hp
        · exact exists_parameter_of_grows (hg.trans hg')
        · exact hpar p hp g' hg'

/-- Copying a composite inserts admissible nodes only, and the copy is live. -/
def Copier.Inserts (copyInner : Copier) : Prop :=
  ∀ id g inner m copy, g.WellFormed → (∀ s ∈ inner.edges, g.contains s) → inner.isComposite →
    Renaming.Live m g → copyInner id g inner m = some copy →
      Grows g copy.2 ∧ copy.2.contains copy.1

/-- A graph that has grown, and a renaming to live nodes. -/
structure Copied (g : Graph) (state : Renaming × Graph) : Prop where
  grows : Grows g state.2
  live : state.1.Live state.2

theorem Copied.copyReader {copyInner : Copier} (hi : copyInner.Inserts) (h : g.WellFormed)
    {state : Renaming × Graph} (hs : Copied g state) (reads : NodeSet) (id : NodeId) :
    Copied g (copyReader copyInner reads state id) := by
  obtain ⟨m, g'⟩ := state
  obtain ⟨hg, hm⟩ := hs
  unfold Graph.copyReader
  simp only
  split
  · exact ⟨hg, hm⟩
  · split
    · exact ⟨hg, hm⟩
    next inner hinner =>
      obtain ⟨e, he, rfl⟩ := node?_eq_some_iff.1 hinner
      have hw := hg.wellFormed h
      have hedges : ∀ s ∈ e.node.edges, g'.contains s := fun s hs ↦ hw.edges_live he hs
      split
      · exact ⟨hg, hm⟩
      next copy g'' hcopy =>
        have hnew : Grows g' g'' ∧ g''.contains copy := by
          split at hcopy
          next hc => exact hi _ _ _ _ _ hw hedges hc hm hcopy
          next hc =>
            obtain ⟨rfl, rfl⟩ := Prod.mk.inj (Option.some.inj hcopy)
            have hadm := admissible_mapEdges (by simpa using hc) hm hedges (hw.arity he)
            exact ⟨grows_insert hadm, contains_insert hadm⟩
        exact ⟨hg.trans hnew.1, (hm.grows hnew.1).insert hnew.2⟩

theorem grows_copyBody {copyInner : Copier} (hi : copyInner.Inserts) (h : g.WellFormed)
    {m : Renaming} (hm : m.Live g) {body : Edge} (hbody : ∀ s ∈ body, g.contains s) :
    Grows g (g.copyBody copyInner m body).2 ∧
      ∀ s ∈ (g.copyBody copyInner m body).1, (g.copyBody copyInner m body).2.contains s := by
  cases body with
  | none => exact ⟨.refl, fun _ hs ↦ by cases hs⟩
  | some root =>
      have hc := List.foldlRecOn (motive := Copied g) (g.postOrder false root)
        (copyReader copyInner (g.readers m root)) (b := (m, g)) ⟨.refl, hm⟩
        fun state hs id _ ↦ hs.copyReader hi h _ id
      refine ⟨hc.grows, hc.live.edge (e := some root) ?_⟩
      rintro s ⟨⟩
      exact hc.grows.contains (hbody root rfl)

/-- The composites met in a body are copied if they may still be opened. -/
def copier (available : List NodeId) : Copier := fun id g inner m ↦
  if id ∈ available then some (copyComposite (available.erase id) g inner m) else none

theorem copier_eq_some_iff {available : List NodeId} {id : NodeId} {inner : Node} {m : Renaming}
    {copy : NodeId × Graph} : copier available id g inner m = some copy ↔
      id ∈ available ∧ copyComposite (available.erase id) g inner m = copy := by
  rw [copier]
  split
  next hid => simp [hid]
  next hid => simp [hid]

theorem copyComposite_eq (available : List NodeId) (g : Graph) (n : Node) (outer : Renaming) :
    copyComposite available g n outer =
      let fresh := g.addPlaceholders 0 n.placeholders.length
      let body := fresh.2.copyBody (copier available) (outer.bind n.placeholders fresh.1)
        n.body?.join
      body.2.insert (rebind outer fresh.1 body.1 n) := by
  rw [copyComposite]
  rfl

/-- The body is copied by insertions, after which the copy of the composite may be added. -/
theorem admissible_copyComposite {available : List NodeId} (hi : (copier available).Inserts)
    {n : Node} {outer : Renaming} (h : g.WellFormed) (hn : ∀ s ∈ n.edges, g.contains s)
    (hc : n.isComposite) (ho : outer.Live g) :
    let fresh := g.addPlaceholders 0 n.placeholders.length
    let body := fresh.2.copyBody (copier available) (outer.bind n.placeholders fresh.1) n.body?.join
    (outer.bind n.placeholders fresh.1).Live fresh.2 ∧ Grows fresh.2 body.2 ∧
      body.2.Admissible (rebind outer fresh.1 body.1 n) := by
  intro fresh body
  have hf := fresh_addPlaceholders g 0 n.placeholders.length
  have hlive : (outer.bind n.placeholders fresh.1).Live fresh.2 :=
    (ho.grows hf.grows).bind hf.contains
  have hroot : ∀ s ∈ n.body?.join, fresh.2.contains s := fun s hs ↦
    hf.grows.contains (hn s (Node.mem_edges_of_port? (Option.join_eq_some_iff.1 hs)))
  obtain ⟨hg, hbody⟩ := grows_copyBody hi (hf.grows.wellFormed h) hlive hroot
  have hg' := hf.grows.trans hg
  refine ⟨hlive, hg, ?_⟩
  exact admissible_rebind hc (ho.grows hg') (fun s hs ↦ hg'.contains (hn s hs)) hbody hf.length_eq
    fun p hp ↦ hf.parameter p hp _ hg

/-- Copying a composite whose edges are live adds placeholders, copies the body and inserts an
admissible node. -/
theorem exists_copyComposite {available : List NodeId} (hi : (copier available).Inserts) {n : Node}
    {outer : Renaming} (h : g.WellFormed) (hn : ∀ s ∈ n.edges, g.contains s) (hc : n.isComposite)
    (ho : outer.Live g) :
    ∃ fresh body, Fresh g n.placeholders.length fresh ∧
      fresh.2.copyBody (copier available) (outer.bind n.placeholders fresh.1) n.body?.join = body ∧
      Grows fresh.2 body.2 ∧ body.2.Admissible (rebind outer fresh.1 body.1 n) ∧
      copyComposite available g n outer = body.2.insert (rebind outer fresh.1 body.1 n) := by
  obtain ⟨-, hg, hadm⟩ := admissible_copyComposite hi h hn hc ho
  exact ⟨_, _, fresh_addPlaceholders g 0 n.placeholders.length, rfl, hg, hadm,
    copyComposite_eq available g n outer⟩

theorem inserts_copier (available : List NodeId) : (copier available).Inserts := by
  induction available using erase_induction with
  | step available ih =>
      intro id g inner m copy hw hedges hinner hm hcopy
      obtain ⟨hid, rfl⟩ := copier_eq_some_iff.1 hcopy
      obtain ⟨fresh, body, hf, -, hg, hadm, heq⟩ :=
        exists_copyComposite (ih id hid) hw hedges hinner hm
      rw [heq]
      exact ⟨(hf.grows.trans hg).insert hadm, contains_insert hadm⟩

/-- A copy of a node only adds to the graph. -/
theorem grows_duplicate (h : g.WellFormed) {id : NodeId} {r : NodeId × Graph}
    (hr : g.duplicate id = .ok r) : Grows g r.2 := by
  unfold duplicate at hr
  split at hr
  · cases hr
  next n hn =>
    obtain ⟨e, he, rfl⟩ := node?_eq_some_iff.1 hn
    split at hr
    next hc =>
      cases hr
      obtain ⟨fresh, body, hf, -, hg, hadm, heq⟩ := exists_copyComposite (inserts_copier _) h
        (fun s hs ↦ h.edges_live he hs) hc (Renaming.live_empty g)
      rw [heq]
      exact (hf.grows.trans hg).insert hadm
    · obtain ⟨hadm, rfl⟩ := add_eq_ok_iff.1 hr
      exact grows_insert hadm

end FieldGraph.Graph
