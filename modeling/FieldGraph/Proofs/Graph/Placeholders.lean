import FieldGraph.Proofs.Graph.Consistency
import FieldGraph.Proofs.Graph.Ownership

/-!
# Placeholders and their arguments

A composite declares the types of its arguments on its placeholders whenever it is revisited, and a
change that concerns it queues it.  So a placeholder that one composite owns declares the type of
its argument after every propagation that comes to rest.  A parameter can be given another type by
hand, though, and a placeholder is a parameter: that queues the placeholder and not its composite,
which may never be revisited.
-/

namespace FieldGraph.Graph

variable {g g' : Graph} {p : NodeId}

/-- The last argument among those that a placeholder stands for. -/
def lastArgument? (p : NodeId) : List (NodeId × Edge) → Option Edge
  | [] => none
  | (q, a) :: rest => (lastArgument? p rest).or (if q = p then some a else none)

/-- The node declares the type, if it is a live parameter. -/
def Declares (g : Graph) (p : NodeId) (t : ValueType) : Prop :=
  ∀ ⦃i declared⦄, g.node? p = some (.parameter i declared) → declared = t

instance (g : Graph) (p : NodeId) (t : ValueType) : Decidable (g.Declares p t) :=
  decidable_of_iff (∀ n ∈ g.node? p, n.isParameter → g.infer n = t) <| by
    refine ⟨fun h i declared hn ↦ h _ hn rfl, fun h n hn hpar ↦ ?_⟩
    obtain ⟨i, declared, rfl⟩ := Node.exists_parameter_of_isParameter hpar
    exact h hn

/-- The placeholder declares the type of its argument in every composite that does not wait to be
revisited. -/
def MirrorsBut (g : Graph) (p : NodeId) (queue : List NodeId) : Prop :=
  ∀ ⦃id n a⦄, g.node? id = some n → id ∉ queue → lastArgument? p n.arguments = some a →
    g.Declares p (g.edgeType a)

/-- The placeholder declares the type of the node that is wired to its argument, or none. -/
def Mirrors (g : Graph) (p : NodeId) : Prop :=
  ∀ ⦃id n a⦄, g.node? id = some n → (p, a) ∈ n.arguments → g.contains p →
    ∃ i, g.node? p = some (.parameter i (g.edgeType a))

/-! ## The arguments of a placeholder -/

theorem mem_of_lastArgument? {as : List (NodeId × Edge)} {a : Edge}
    (h : lastArgument? p as = some a) : (p, a) ∈ as := by
  induction as with
  | nil => cases h
  | cons b as ih =>
      rw [lastArgument?, Option.or_eq_some_iff] at h
      rcases h with h | ⟨-, h⟩
      · exact List.mem_cons_of_mem _ (ih h)
      · obtain ⟨hb, ha⟩ := Option.ite_none_right_eq_some.1 h
        rw [← hb, ← Option.some.inj ha]
        exact List.mem_cons_self

theorem lastArgument?_eq_none_iff {as : List (NodeId × Edge)} :
    lastArgument? p as = none ↔ p ∉ as.map Prod.fst := by
  induction as with
  | nil => simp [lastArgument?]
  | cons b as ih =>
      rw [lastArgument?, Option.or_eq_none_iff, ih, List.map_cons, List.mem_cons, not_or, and_comm]
      simp [eq_comm]

theorem mem_placeholders_of_lastArgument? {n : Node} {a : Edge}
    (h : lastArgument? p n.arguments = some a) : p ∈ n.placeholders := by
  rw [← Node.arguments_map_fst]
  exact List.mem_map.2 ⟨(p, a), mem_of_lastArgument? h, rfl⟩

theorem exists_lastArgument? {n : Node} (h : p ∈ n.placeholders) :
    ∃ a, lastArgument? p n.arguments = some a := by
  cases ha : lastArgument? p n.arguments with
  | some a => exact ⟨a, rfl⟩
  | none => exact absurd (Node.arguments_map_fst n ▸ h) (lastArgument?_eq_none_iff.1 ha)

/-- A placeholder that is listed once stands for one argument. -/
theorem lastArgument?_of_mem {as : List (NodeId × Edge)} {a : Edge} (h : (p, a) ∈ as)
    (hp : (as.map Prod.fst).count p ≤ 1) : lastArgument? p as = some a := by
  induction as with
  | nil => cases h
  | cons b as ih =>
      rw [List.map_cons, List.count_cons] at hp
      rcases List.mem_cons.1 h with rfl | h
      · have hnone : lastArgument? p as = none := by
          rw [lastArgument?_eq_none_iff, ← List.count_eq_zero]
          simp only [beq_self_eq_true, if_true] at hp
          omega
        simp [lastArgument?, hnone]
      · rw [lastArgument?, ih h (by omega)]
        rfl

/-! ## One revisit -/

theorem node?_declare_of_ne {q : NodeId} (h : q ≠ p) (t : ValueType) :
    (g.declare q t).1.node? p = g.node? p := by
  unfold declare
  split
  · split
    · rfl
    · rw [node?, node?, entry?_setNode, if_neg h]
  · rfl

theorem declares_declare (g : Graph) (p : NodeId) (t : ValueType) :
    (g.declare p t).1.Declares p t := by
  intro i declared h
  unfold declare at h
  split at h
  next j former hn =>
    split at h
    next heq =>
      rw [hn] at h
      cases h
      exact heq
    · obtain ⟨e, he, -⟩ := node?_eq_some_iff.1 hn
      simp only [node?, entry?_setNode, if_true, he, Option.map_some] at h
      cases h
      rfl
  next hne => exact absurd h (hne i declared)

theorem node?_declareArguments {as : List (NodeId × Edge)} (h : p ∉ as.map Prod.fst) :
    (g.declareArguments as).1.node? p = g.node? p := by
  induction as generalizing g with
  | nil => rfl
  | cons a as ih =>
      rw [List.map_cons, List.mem_cons, not_or] at h
      exact (ih h.2).trans (node?_declare_of_ne (Ne.symm h.1) _)

/-- Whatever is declared on a placeholder before, the last argument decides. -/
theorem declares_declareArguments {as : List (NodeId × Edge)} {a : Edge}
    (h : lastArgument? p as = some a) : (g.declareArguments as).1.Declares p (g.edgeType a) := by
  induction as generalizing g with
  | nil => cases h
  | cons b as ih =>
      obtain ⟨q, b⟩ := b
      have hedge : (g.declare q (g.edgeType b)).1.edgeType a = g.edgeType a :=
        edgeType_congr fun s _ ↦ (entry?_declare g q (g.edgeType b) s).1
      rw [lastArgument?, Option.or_eq_some_iff] at h
      rcases h with h | ⟨hnone, h⟩
      · exact hedge ▸ ih h
      · obtain ⟨rfl, hb⟩ := Option.ite_none_right_eq_some.1 h
        obtain rfl := Option.some.inj hb
        intro i declared hn
        have hrest := node?_declareArguments (g := (g.declare q (g.edgeType b)).1)
          (lastArgument?_eq_none_iff.1 hnone)
        exact declares_declare g q (g.edgeType b) (hrest.symm.trans hn)

/-- What a node that is not queued reads keeps its type. -/
theorem edgeType_revisit (hw : g.WellFormed) {id j : NodeId} {n : Node} (hn : g.node? j = some n)
    (hj : j ∉ (g.revisit id).2) {e : Edge} (he : ∀ s ∈ e, s ∈ n.edges) :
    (g.revisit id).1.edgeType e = g.edgeType e := by
  refine edgeType_congr fun s hs ↦ ?_
  obtain ⟨f, hf, rfl⟩ := node?_eq_some_iff.1 hn
  cases hid : g.entry? id with
  | none => rw [revisit_dead hid]
  | some d =>
      rw [revisit_eq hid] at hj ⊢
      have htype := (entry?_declareArguments d.node.arguments g s).1
      simp only at hj ⊢
      split at hj
      next heq =>
        rw [if_pos heq]
        exact htype
      next hne =>
        have hdep := (not_or.1 (mt List.mem_append.2 hj)).2
        rw [if_neg hne, type?_setType_of_ne, htype]
        rintro rfl
        exact hdep (hw.mem_dependents hid hf (he _ hs))

/-- A revisit changes nodes only by what it declares. -/
theorem node?_revisit {id : NodeId} {n : Node} (hn : g.node? id = some n) (j : NodeId) :
    (g.revisit id).1.node? j = (g.declareArguments n.arguments).1.node? j := by
  obtain ⟨e, he, rfl⟩ := node?_eq_some_iff.1 hn
  rw [revisit_eq he]
  simp only
  split
  · rfl
  · rw [node?, node?, entry?_setType]
    split
    · cases entry? (g.declareArguments e.node.arguments).1 j <;> rfl
    · rfl

/-- A revisit of a composite declares the types of its arguments, and no other composite declares
anything on the placeholders of this one. -/
theorem MirrorsBut.revisit (hp : g.OwnedOnce p) (hw : g.WellFormed) {id : NodeId}
    {queue : List NodeId} (h : g.MirrorsBut p (id :: queue)) :
    (g.revisit id).1.MirrorsBut p (queue ++ (g.revisit id).2) := by
  intro j n' a hn' hj ha
  obtain ⟨hj, hj'⟩ := not_or.1 (mt List.mem_append.2 hj)
  obtain ⟨n, hn, ho⟩ := (retyped_revisit g id).node? hn'
  rw [Node.arguments_eq_of_outline ho] at ha
  rw [edgeType_revisit hw hn hj' fun s hs ↦
    Node.mem_edges_of_mem_arguments (mem_of_lastArgument? ha) hs]
  intro i declared hdeclared
  by_cases hid : j = id
  · subst hid
    rw [node?_revisit hn] at hdeclared
    exact declares_declareArguments ha hdeclared
  · refine h hn (List.not_mem_cons_of_ne_of_not_mem hid hj) ha (i := i) ?_
    cases hm : g.node? id with
    | none =>
        have hdead : g.entry? id = none := by simpa [node?] using hm
        rwa [revisit_dead hdead] at hdeclared
    | some m =>
        rw [node?_revisit hm, node?_declareArguments] at hdeclared
        · exact hdeclared
        · rw [Node.arguments_map_fst]
          exact fun hmem ↦ hid (hp hn hm (mem_placeholders_of_lastArgument? ha) hmem)

/-! ## A whole propagation -/

theorem OwnedOnce.retyped (h : g.OwnedOnce p) (hr : Retyped g g') : g'.OwnedOnce p :=
  (KeepsOwners.of_retyped hr).ownedOnce h

theorem MirrorsBut.propagate {changed : List NodeId} (h : g.MirrorsBut p changed)
    (hp : g.OwnedOnce p) (hw : g.WellFormed) (hs : (g.propagate changed).settled = true) :
    (g.propagate changed).MirrorsBut p [] := by
  obtain ⟨-, hrest⟩ := (settled_propagate_iff g changed).1 hs
  have hm := (settleWithin_invariant
    (P := fun g queue ↦ g.WellFormed ∧ g.OwnedOnce p ∧ g.MirrorsBut p queue)
    (fun g id _ h ↦ ⟨h.1.retyped (retyped_revisit g id), h.2.1.retyped (retyped_revisit g id),
      h.2.2.revisit h.2.1 h.1⟩) g.budget ⟨hw, hp, h⟩).2.2
  unfold Graph.propagate
  split
  next g' heq =>
    rw [heq] at hm
    exact hm
  next hne heq =>
    rw [heq] at hrest
    exact absurd hrest hne

/-! ## Changes of the wiring -/

/-- A change that leaves the placeholder alone puts out of step only what it touches. -/
theorem MirrorsBut.change {touched : List NodeId} (h : g.MirrorsBut p [])
    (hc : Change g touched g') (hw : g.WellFormed)
    (hsame : p ∈ g.placeholders → g'.contains p → g'.node? p = g.node? p) :
    g'.MirrorsBut p touched := by
  intro id n a hn hid ha i declared hdeclared
  obtain ⟨f, hf, rfl⟩ := node?_eq_some_iff.1 hn
  obtain ⟨f₀, hf₀, hnode, -, hread⟩ := hc.untouched hw hf hid
  rw [hnode] at ha
  have hp := mem_placeholders_of_lastArgument? ha
  have hn₀ := node?_of_entry hf₀
  rw [edgeType_congr fun s hs ↦
    hread s (Node.mem_edges_of_mem_arguments (mem_of_lastArgument? ha) hs)]
  refine h hn₀ List.not_mem_nil ha (i := i) ?_
  rw [← hsame (mem_placeholders.2 ⟨id, _, hn₀, hp⟩) (contains_of_node? hdeclared)]
  exact hdeclared

/-- The second graph is the first one after propagated changes that leave the placeholder alone. -/
inductive SparingSteps (p : NodeId) (g : Graph) : Graph → Prop
  | refl : SparingSteps p g g
  | step {g₁ g₂ : Graph} {touched : List NodeId} : SparingSteps p g g₁ → Change g₁ touched g₂ →
      g₂.OwnedOnce p → (p ∈ g₁.placeholders → g₂.contains p → g₂.node? p = g₁.node? p) →
        SparingSteps p g (g₂.propagate touched)

namespace SparingSteps

theorem trans {g'' : Graph} (h : SparingSteps p g g') (h' : SparingSteps p g' g'') :
    SparingSteps p g g'' := by
  induction h' with
  | refl => exact h
  | step _ hc hp hsame ih => exact .step ih hc hp hsame

theorem steps (h : SparingSteps p g g') : Steps g g' := by
  induction h with
  | refl => exact .refl
  | step _ hc _ _ ih => exact .step ih hc

theorem mirrorsBut (hs : SparingSteps p g g') (hw : g.WellFormed) (h : g.MirrorsBut p [])
    (hset : g'.settled = true) : g'.MirrorsBut p [] := by
  induction hs with
  | refl => exact h
  | @step g₁ g₂ touched hs hc hp hsame ih =>
      have hw₁ := hs.steps.wellFormed hw
      have hset₁ : g₁.settled = true := hc.settled_eq ▸ ((settled_propagate_iff ..).1 hset).1
      exact ((ih hset₁).change hc hw₁ hsame).propagate hp (hw₁.change hc) hset

end SparingSteps

/-- A placeholder in use is a parameter for as long as it lives. -/
theorem WellFormed.isParameter_of_mem_placeholders (hw : g.WellFormed) (hp : p ∈ g.placeholders)
    {n : Node} (hn : g.node? p = some n) : n.isParameter := by
  obtain ⟨id, m, hm, hmem⟩ := mem_placeholders.1 hp
  obtain ⟨e, he, rfl⟩ := node?_eq_some_iff.1 hm
  obtain ⟨f, hf, rfl⟩ := node?_eq_some_iff.1 hn
  exact (hw.placeholders he hmem).2 f hf

theorem OwnedOnce.of_grows (hg : Grows g g') (h : g'.OwnedOnce p) : g.OwnedOnce p := by
  intro id id' n n' hn hn' hp hp'
  obtain ⟨m, hm, ho⟩ := hg.node? hn
  obtain ⟨m', hm', ho'⟩ := hg.node? hn'
  exact h hm hm' (Node.placeholders_eq_of_outline ho ▸ hp)
    (Node.placeholders_eq_of_outline ho' ▸ hp')

/-- Insertions leave a placeholder alone unless they give it to a second node. -/
theorem Grows.sparing (hg : Grows g g') (hw : g.WellFormed) (hp : g'.OwnedOnce p) :
    SparingSteps p g g' := by
  induction hg with
  | refl => exact .refl
  | @insert g₁ n hg hn ih =>
      have hw₁ := hg.wellFormed hw
      have hattach : (g₁.attach n).OwnedOnce p := hp.retyped (retyped_propagate _ _).symm
      have hsame (hmem : p ∈ g₁.placeholders) : (g₁.attach n).node? p = g₁.node? p := by
        obtain ⟨id, m, hm, hpm⟩ := mem_placeholders.1 hmem
        have hne : p ≠ g₁.nextId := by
          rintro rfl
          exact Nat.lt_irrefl _ (hw₁.index_lt_of_mem_placeholders hm hpm)
        rw [Graph.node?, Graph.node?, entry?_attach hn.edges_live, if_neg hne]
        cases g₁.entry? p <;> rfl
      exact .step (ih (hp.of_grows (grows_insert hn))) (.attach hn) hattach fun hmem _ ↦ hsame hmem

theorem sparing_setEdge (hw : g.WellFormed) (hp : g.OwnedOnce p) {id : NodeId} {port : Port}
    {source : Edge} (h : g.setEdge id port source = .ok g') : SparingSteps p g g' := by
  obtain ⟨n, former, n', hs, hn, hf, hn', rfl⟩ := exists_rewire_of_setEdge h
  refine .step .refl (.rewire hn hf hn' hs) ((keepsOwners_rewire hn hn').ownedOnce hp)
    fun hmem _ ↦ ?_
  -- parameters have no ports
  have hne : id ≠ p := by
    rintro rfl
    have hpar := hw.isParameter_of_mem_placeholders hmem hn
    cases n with
    | parameter => cases hf
    | _ => cases hpar
  rw [node?, node?, entry?_rewire]
  cases g.entry? p <;> simp [hne]

theorem sparing_revise (hp : g.OwnedOnce p) {id : NodeId} {kind : String} {f : Node → Option Node}
    (hf : ∀ n n', f n = some n' → n.Replaceable n')
    (hsame : ∀ n n', g.node? p = some n → f n = some n' → id = p → p ∈ g.placeholders → n' = n)
    (h : g.revise id kind f = .ok g') : SparingSteps p g g' := by
  obtain ⟨n, n', hn, hn', rfl⟩ := exists_setNode_of_revise h
  have hr := hf n n' hn'
  refine .step .refl (.replace hn hr) ((keepsOwners_setNode hn hr).ownedOnce hp) fun hmem _ ↦ ?_
  rw [node?, node?, entry?_setNode]
  split
  next hid =>
    subst hid
    rw [hsame n n' hn hn' rfl hmem]
    obtain ⟨e, he, rfl⟩ := node?_eq_some_iff.1 hn
    rw [he]
    rfl
  · rfl

theorem sparing_takeOut (hw : g.WellFormed) (hp : g.OwnedOnce p) {id : NodeId} {e : Entry}
    (he : g.entry? id = some e) : SparingSteps p g (g.takeOut id e) := by
  have hsame (hmem : p ∈ g.placeholders) (hlive : (g.detach id e).contains p) :
      (g.detach id e).node? p = g.node? p := by
    obtain ⟨f', hf'⟩ := contains_iff.1 hlive
    obtain ⟨-, f, hf, rfl⟩ := hw.exists_of_entry?_detach he hf'
    obtain ⟨i, t, hn⟩ := Node.exists_parameter_of_isParameter
      (hw.isParameter_of_mem_placeholders hmem (node?_of_entry hf))
    simp [node?, hf', hf, hn, Node.clear, Node.mapEdges]
  have h := SparingSteps.step .refl (.detach he) ((keepsOwners_detach hw he).ownedOnce hp) hsame
  exact h

theorem sparing_dropPlaceholder (hw : g.WellFormed) (hp : g.OwnedOnce p) (q : NodeId) :
    SparingSteps p g (g.dropPlaceholder q) := by
  unfold dropPlaceholder
  split
  · exact .refl
  · split
    next e he => exact sparing_takeOut hw hp he
    · exact .refl

theorem sparing_remove (hw : g.WellFormed) (hp : g.OwnedOnce p) {id : NodeId} {r : Node × Graph}
    (h : g.remove id = .ok r) : SparingSteps p g r.2 := by
  unfold remove at h
  split at h
  · cases h
  next e he =>
    cases h
    refine (List.foldlRecOn (motive := fun g' ↦ SparingSteps p g g' ∧ g'.OwnedOnce p) _ _
      ⟨sparing_takeOut hw hp he, (keepsOwners_takeOut hw he).ownedOnce hp⟩ fun g' h q _ ↦ ?_).1
    have hw' := h.1.steps.wellFormed hw
    exact ⟨h.1.trans (sparing_dropPlaceholder hw' h.2 q),
      (keepsOwners_dropPlaceholder hw' q).ownedOnce h.2⟩

/-! ## Runs -/

/-- The edit gives another type to a placeholder that is in use. -/
def Action.Redeclares (g : Graph) (p : NodeId) : Action → Prop
  | setDeclared id t => id = p ∧ p ∈ g.placeholders ∧ ¬ g.Declares p t
  | _ => False

instance (g : Graph) (p : NodeId) : (a : Action) → Decidable (a.Redeclares g p)
  | .setDeclared id t =>
    inferInstanceAs (Decidable (id = p ∧ p ∈ g.placeholders ∧ ¬ g.Declares p t))
  | .add .. | .constant .. | .parameter .. | .unary .. | .binary .. | .construct .. | .output ..
  | .compositeUnary | .compositeBinary | .duplicate .. | .remove .. | .setEdge .. | .disconnect ..
  | .setBody .. | .setConstant .. | .setUnaryOp .. | .setBinaryOp .. =>
    inferInstanceAs (Decidable False)

/-- An edit that neither takes a placeholder over nor redeclares it leaves it to its composite. -/
theorem sparing_perform (hw : g.WellFormed) (hp : g.OwnedOnce p) {a : Action}
    (ha : a.perform g = .ok g') (ht : ¬ a.TakesOver g p) (hr : ¬ a.Redeclares g p) :
    SparingSteps p g g' := by
  have hp' := hp.perform hw ha ht
  cases a with
  | add | unary | binary | construct | output =>
      obtain ⟨r, hr, rfl⟩ := exists_of_map_snd ha
      obtain ⟨hn, rfl⟩ := add_eq_ok_iff.1 hr
      exact (grows_insert hn).sparing hw hp'
  | constant v =>
      obtain rfl := Except.ok.inj ha
      have hn : g.Admissible (.constant v) := .of_edges (fun _ hs ↦ by cases hs) trivial rfl
      exact (grows_insert hn).sparing hw hp'
  | parameter index declared =>
      obtain rfl := Except.ok.inj ha
      exact (grows_addParameter g index declared).sparing hw hp'
  | compositeUnary =>
      obtain rfl := Except.ok.inj ha
      exact (grows_addCompositeUnary g).sparing hw hp'
  | compositeBinary =>
      obtain rfl := Except.ok.inj ha
      exact (grows_addCompositeBinary g).sparing hw hp'
  | duplicate id =>
      obtain ⟨r, hr, rfl⟩ := exists_of_map_snd ha
      exact (grows_duplicate hw hr).sparing hw hp'
  | remove id =>
      obtain ⟨r, hr, rfl⟩ := exists_of_map_snd ha
      exact sparing_remove hw hp hr
  | setEdge id port source => exact sparing_setEdge hw hp ha
  | disconnect id port =>
      simp only [Action.perform, disconnect] at ha
      exact sparing_setEdge hw hp ha
  | setBody composite body =>
      simp only [Action.perform, setBody] at ha
      exact sparing_setEdge hw hp ha
  | setConstant | setUnaryOp | setBinaryOp =>
      simp only [Action.perform, setConstant, setUnaryOp, setBinaryOp] at ha
      refine sparing_revise hp (fun n n' hn ↦ ?_) (fun n n' hn hn' _ hmem ↦ ?_) ha
      · cases n <;> cases hn
        exact ⟨rfl, rfl, rfl, fun harity ↦ harity⟩
      · have hpar := hw.isParameter_of_mem_placeholders hmem hn
        cases n with
        | parameter => cases hn'
        | _ => cases hpar
  | setDeclared id t =>
      simp only [Action.perform, setDeclared] at ha
      refine sparing_revise hp (fun n n' hn ↦ ?_) (fun n n' hn hn' hid hmem ↦ ?_) ha
      · cases n <;> cases hn
        exact ⟨rfl, rfl, rfl, fun harity ↦ harity⟩
      · cases n <;> cases hn'
        by_contra hne
        exact hr ⟨hid, hmem, fun hd ↦ hne (by rw [hd hn])⟩

/-- What the edits of a run have to spare for a placeholder to mirror its argument. -/
structure Spared (actions : List Action) (p : NodeId) : Prop where
  not_takesOver : Throughout (fun g a ↦ ¬ a.TakesOver g p) actions
  not_redeclares : Throughout (fun g a ↦ ¬ a.Redeclares g p) actions

theorem ownedOnce_empty (p : NodeId) : empty.OwnedOnce p := fun _ _ _ _ hn ↦ by cases hn

theorem listedOnce_empty (p : NodeId) : empty.ListedOnce p := fun _ _ hn ↦ by cases hn

theorem listedOnce_after {actions : List Action}
    (h : Throughout (fun g a ↦ ¬ a.ListsTwice g p) actions) : (after actions).ListedOnce p :=
  after_induction (motive := (ListedOnce · p)) h (listedOnce_empty p) fun hw hl ht ha ↦
    hl.perform hw ha ht

namespace Spared

variable {actions : List Action}

theorem throughout (h : Spared actions p) :
    Throughout (fun g a ↦ ¬ a.TakesOver g p ∧ ¬ a.Redeclares g p) actions :=
  fun k hk ↦ ⟨h.not_takesOver k hk, h.not_redeclares k hk⟩

theorem of_prefix (h : Spared actions p) {done : List Action} (hd : done <+: actions) :
    Spared done p := ⟨h.not_takesOver.of_prefix hd, h.not_redeclares.of_prefix hd⟩

/-- While every propagation comes to rest, no composite is out of step with a placeholder that is
spared. -/
theorem mirrorsBut (h : Spared actions p) (hs : (after actions).settled = true) :
    (after actions).MirrorsBut p [] := by
  refine (after_induction (motive := fun g ↦ g.OwnedOnce p ∧ (g.settled = true → g.MirrorsBut p []))
    h.throughout ⟨ownedOnce_empty p, fun _ _ _ _ hn ↦ by cases hn⟩ ?_).2 hs
  rintro g g' a hw ⟨hp, hm⟩ ⟨ht, hr⟩ ha
  have hsteps := sparing_perform hw hp ha ht hr
  exact ⟨hp.perform hw ha ht, fun hs' ↦
    hsteps.mirrorsBut hw (hm (hsteps.steps.settled_of_settled hs')) hs'⟩

end Spared

/-- In a run of edits in which every propagation has come to rest, a placeholder that no second
composite takes over, that none lists twice and that is not redeclared by hand mirrors the argument
it stands for, after each edit. -/
theorem mirrors_of_settled {actions : List Action} (h : (after actions).settled = true)
    (hp : Spared actions p) (hl : Throughout (fun g a ↦ ¬ a.ListsTwice g p) actions)
    {done : List Action} (hd : done <+: actions) : (after done).Mirrors p := by
  intro c n a hn hmem hlive
  have hset : (after done).settled = true := by
    obtain ⟨rest, rfl⟩ := id hd
    exact (steps_after_append done rest).settled_of_settled h
  have hone := listedOnce_after (hl.of_prefix hd) hn
  rw [← Node.arguments_map_fst] at hone
  have ha := lastArgument?_of_mem hmem hone
  obtain ⟨e, he⟩ := contains_iff.1 hlive
  obtain ⟨i, declared, hpar⟩ := Node.exists_parameter_of_isParameter
    ((wellFormed_after done).isParameter_of_mem_placeholders
      (mem_placeholders.2 ⟨c, n, hn, mem_placeholders_of_lastArgument? ha⟩) (node?_of_entry he))
  have hdeclared : (after done).node? p = some (.parameter i declared) := by
    rw [node?_of_entry he, hpar]
  have := (hp.of_prefix hd).mirrorsBut hset hn List.not_mem_nil ha hdeclared
  exact ⟨i, this ▸ hdeclared⟩

/-- A composite on a parameter, a copy of it, and another type for the parameter. -/
def retypedArgument : List Action :=
  [.parameter 0 (.of .float), .compositeUnary, .setEdge ⟨2⟩ .input (some ⟨0⟩), .unary .negate ⟨1⟩,
    .output ⟨3⟩, .setBody ⟨2⟩ ⟨4⟩, .duplicate ⟨2⟩, .setDeclared ⟨0⟩ (.of .float2)]

/-- The placeholder of the copy follows the parameter, although that is a parameter too. -/
theorem mirrors_retypedArgument :
    (after retypedArgument).Mirrors ⟨5⟩ ∧
      (after retypedArgument).node? ⟨5⟩ = some (.parameter 0 (.of .float2)) :=
  ⟨mirrors_of_settled (by decide +kernel) ⟨by decide +kernel, by decide +kernel⟩ (by decide +kernel)
    (List.prefix_refl _), by decide +kernel⟩

/-- A composite with nothing wired, and a type for its placeholder. -/
def redeclared : List Action := [.compositeUnary, .setDeclared ⟨0⟩ (.of .float)]

/-- A placeholder that is redeclared by hand stays out of step: its composite is not revisited. -/
theorem not_mirrors_redeclared :
    (after redeclared).settled = true ∧
      (∀ p, Throughout (fun g a ↦ ¬ a.TakesOver g p ∧ ¬ a.ListsTwice g p) redeclared) ∧
      ¬ (after redeclared).Mirrors ⟨0⟩ := by
  refine ⟨by decide +kernel, fun p k hk ↦ ?_, fun h ↦ ?_⟩
  · match k, hk with
    | 0, _ | 1, _ => exact ⟨id, id⟩
  · have hcomposite : (after redeclared).node? ⟨1⟩ = some (.compositeUnary none none ⟨0⟩) := by
      decide +kernel
    obtain ⟨i, hi⟩ := h hcomposite (a := none) (by decide) (by decide +kernel)
    have hnode : (after redeclared).node? ⟨0⟩ = some (.parameter 0 (.of .float)) := by
      decide +kernel
    rw [hnode] at hi
    cases hi

end FieldGraph.Graph
