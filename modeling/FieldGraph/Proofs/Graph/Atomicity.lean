import FieldGraph.Proofs.Graph.InPlace
import FieldGraph.Proofs.Graph.Ownership

/-!
# Refused edits

In a well-formed graph the steps that come after a first change find every node that they look up:
what a node reads has been found live before and stays so, and a placeholder is a parameter, which
owns no placeholders itself.  So an edit that is carried out in place is refused before it changes
anything, or brings about what the checked edit does.
-/

namespace FieldGraph.Graph

variable {g g' : Graph}

namespace InPlace

variable {α β : Type}

/-! ## Running steps -/

theorem bind_of_ok {x : InPlace α} {f : α → InPlace β} {a : α} (h : x g = .ok a g') :
    (x >>= f) g = f a g' := by simp [bind, EStateM.bind, h]

theorem bind_of_error {x : InPlace α} {f : α → InPlace β} {r : Refusal} (h : x g = .error r g') :
    (x >>= f) g = .error r g' := by simp [bind, EStateM.bind, h]

theorem change_bind (f : Graph → α × Graph) (k : α → InPlace β) :
    (change f >>= k) g = k (f g).1 (f g).2 := rfl

theorem modify_bind (f : Graph → Graph) (k : PUnit → InPlace β) :
    ((modify f : InPlace PUnit) >>= k) g = k ⟨⟩ (f g) := rfl

theorem found_bind (e : GraphError) (a : α) (k : α → InPlace β) :
    (found e (some a) >>= k) g = k a g := rfl

theorem get_bind (k : Graph → InPlace β) : (get >>= k) g = k g g := rfl

theorem check_of_ok {p : Graph → Except GraphError α} {a : α} (h : p g = .ok a) :
    check p g = .ok a g := by rw [check, h]

theorem check_of_error {test : Graph → Except GraphError α} {e : GraphError}
    (h : test g = .error e) : check test g = .error (.upfront e) g := by rw [check, h]

theorem later_of_ok {steps : InPlace α} {a : α} (h : steps g = .ok a g') :
    later steps g = .ok a g' := by simp [later, EStateM.adaptExcept, h]

theorem lookup_of_entry {id : NodeId} {e : Entry} (h : g.entry? id = some e) :
    lookup id g = .ok e g := by
  rw [lookup, get_bind, h]
  rfl

theorem lookup_of_dead {id : NodeId} (h : g.entry? id = none) :
    lookup id g = .error (.upfront (.unknownNode id)) g := by
  rw [lookup, get_bind, h]
  rfl

/-- What an edit in place comes to: it is refused with the graph as it was, or leaves another one. -/
def outcome (g : Graph) : Except GraphError (α × Graph) → EStateM.Result Refusal Graph α
  | .ok (a, g') => .ok a g'
  | .error e => .error (.upfront e) g

/-! ## Subscriptions -/

theorem subscribe_of_contains {consumer source : NodeId} (h : g.contains source) :
    subscribe consumer source g = .ok () (g.subscribe consumer source) := by
  obtain ⟨e, he⟩ := contains_iff.1 h
  rw [subscribe, bind_of_ok (lookup_of_entry he)]
  rfl

/-- Subscriptions to live nodes are all made. -/
theorem forM_subscribe {consumer : NodeId} {sources : List NodeId}
    (h : ∀ s ∈ sources, g.contains s) :
    sources.forM (subscribe consumer) g =
      .ok () (sources.foldl (fun g s ↦ g.subscribe consumer s) g) := by
  induction sources generalizing g with
  | nil => rfl
  | cons s sources ih =>
      change (subscribe consumer s >>= fun _ ↦ sources.forM (subscribe consumer)) g = _
      rw [bind_of_ok (subscribe_of_contains (h s List.mem_cons_self)), ih]
      · rfl
      · intro t ht
        rw [Graph.subscribe, contains_modifyEntry]
        exact h t (List.mem_cons_of_mem _ ht)

theorem add_eq (n : Node) (g : Graph) : add n g = outcome g (g.add n) := by
  rw [add, Graph.add]
  cases he : g.checkEdges n with
  | error e => rw [bind_of_error (check_of_error he)]; rfl
  | ok u =>
    rw [bind_of_ok (check_of_ok he)]
    cases hp : n.placeholders.forM g.checkPlaceholder with
    | error e => rw [bind_of_error (check_of_error hp)]; rfl
    | ok u =>
      rw [bind_of_ok (check_of_ok hp)]
      cases ha : checkArity n with
      | error e => rw [bind_of_error (check_of_error rfl)]; rfl
      | ok u =>
        have hlive : ∀ s ∈ n.edges, (g.push n).contains s := fun s hs ↦ by
          simp [contains_push, checkEdges_eq_ok_iff.1 he s hs]
        rw [bind_of_ok (check_of_ok (p := fun _ ↦ .ok u) rfl), change_bind,
          bind_of_ok (later_of_ok (forM_subscribe hlive))]
        rfl

theorem setEdge_eq (id : NodeId) (port : Port) (source : Edge) (g : Graph) :
    setEdge id port source g = outcome g ((g.setEdge id port source).map ((), ·)) := by
  rw [setEdge, Graph.setEdge]
  cases hs : g.checkSource source with
  | error e => rw [bind_of_error (check_of_error hs)]; rfl
  | ok u =>
    rw [bind_of_ok (check_of_ok hs)]
    cases he : g.entry? id with
    | none =>
      rw [bind_of_error (lookup_of_dead he), node?, he]
      rfl
    | some e =>
      rw [bind_of_ok (lookup_of_entry he), node?_of_entry he]
      cases hf : e.node.port? port with
      | none => simp only [hf]; rfl
      | some former =>
        cases hn : e.node.setPort? source port with
        | none => simp only [hf, hn]; rfl
        | some n =>
          -- the new source is live in spite of the changes before it is looked up
          have hlive : ∀ s ∈ source.toList,
              (former.toList.foldl (fun g s ↦ g.unsubscribe id s) (g.setNode id n)).contains s := by
            intro s hmem
            have hs := checkSource_eq_ok_iff.1 hs s (Option.mem_toList.1 hmem)
            cases former <;> simpa [Graph.setNode, unsubscribe] using hs
          have hunsubscribe : (former.toList.forM fun s ↦ modify (unsubscribe · id s) : InPlace PUnit)
              (g.setNode id n) =
                .ok () (former.toList.foldl (fun g s ↦ g.unsubscribe id s) (g.setNode id n)) := by
            cases former <;> rfl
          rw [found_bind, found_bind, modify_bind, bind_of_ok hunsubscribe,
            bind_of_ok (later_of_ok (forM_subscribe hlive))]
          simp only [hf, hn]
          rfl

theorem revise_eq (id : NodeId) (expected : String) (f : Node → Option Node) (g : Graph) :
    revise id expected f g = outcome g ((g.revise id expected f).map ((), ·)) := by
  rw [revise, Graph.revise]
  cases he : g.entry? id with
  | none =>
    rw [bind_of_error (lookup_of_dead he), node?, he]
    rfl
  | some e =>
    rw [bind_of_ok (lookup_of_entry he), node?_of_entry he]
    cases hn : f e.node <;>
    · simp only [hn]
      rfl

/-! ## Removals -/

/-- A parameter owns no placeholders, so that nothing is removed after it. -/
theorem removeWithin_of_parameter {live : Nat} {p : NodeId} {f : Entry}
    (hf : g.entry? p = some f) (hpar : f.node.isParameter) (hlive : 0 < live) :
    removeWithin live p g = .ok f.node (g.takeOut p f) := by
  obtain ⟨index, t, hnode⟩ := Node.exists_parameter_of_isParameter hpar
  obtain ⟨live, rfl⟩ := Nat.exists_eq_succ_of_ne_zero (Nat.ne_of_gt hlive)
  rw [removeWithin, bind_of_ok (lookup_of_entry hf), modify_bind, hnode]
  rfl

theorem size_takeOut (g : Graph) (id : NodeId) (e : Entry) :
    (g.takeOut id e).size = g.size - 1 :=
  (retyped_propagate (g.detach id e) e.consumers).size_eq.trans (detach_fields g id e).2.1

theorem size_dropPlaceholder_le (g : Graph) (p : NodeId) : (g.dropPlaceholder p).size ≤ g.size := by
  unfold Graph.dropPlaceholder
  split
  · exact Nat.le_refl _
  · split
    · rw [size_takeOut]
      exact Nat.sub_le _ _
    · exact Nat.le_refl _

theorem dropPlaceholder_of_parameter {live : Nat} {p : NodeId} (hw : g.WellFormed)
    (hsize : g.size ≤ live) (hp : ∀ n, g.node? p = some n → n.isParameter) :
    dropPlaceholder (removeWithin live) p g = .ok () (g.dropPlaceholder p) := by
  rw [dropPlaceholder, get_bind, Graph.dropPlaceholder]
  by_cases howned : p ∈ g.placeholders
  · rw [if_neg (fun h ↦ h.1 howned), if_pos howned]
    rfl
  · rw [if_neg howned]
    cases hf : g.entry? p with
    | none =>
      rw [if_neg (fun h ↦ by simp [contains_eq, hf] at h)]
      rfl
    | some f =>
      have hmem : p ∈ g.ids := mem_ids.2 (contains_of_entry hf)
      have hpos : 0 < g.size := hw.size_eq ▸ List.length_pos_of_mem hmem
      rw [if_pos ⟨howned, contains_of_entry hf⟩, bind_of_ok
        (removeWithin_of_parameter hf (hp _ (node?_of_entry hf)) (hpos.trans_le hsize))]
      rfl

/-- Placeholders that are parameters are taken out one after another. -/
theorem forM_dropPlaceholder (live : Nat) {ps : List NodeId} (hw : g.WellFormed)
    (hsize : g.size ≤ live) (hps : ∀ p ∈ ps, ∀ n, g.node? p = some n → n.isParameter) :
    ps.forM (dropPlaceholder (removeWithin live)) g = .ok () (ps.foldl Graph.dropPlaceholder g) := by
  induction ps generalizing g with
  | nil => rfl
  | cons p ps ih =>
      have hdrop := dropPlaceholder_of_parameter hw hsize (hps p List.mem_cons_self)
      refine (bind_of_ok hdrop).trans (ih ((steps_dropPlaceholder g p).wellFormed hw)
        ((size_dropPlaceholder_le g p).trans hsize) fun q hq n hn ↦ ?_)
      obtain ⟨m, hm, -, hpar⟩ := keepsOwners_dropPlaceholder hw p hn
      exact hpar.trans (hps q (List.mem_cons_of_mem _ hq) m hm)

theorem remove_eq (hw : g.WellFormed) (id : NodeId) : remove id g = outcome g (g.remove id) := by
  rw [remove, get_bind, Graph.remove]
  cases he : g.entry? id with
  | none =>
    cases g.size with
    | zero => rfl
    | succ live => rw [removeWithin, bind_of_error (lookup_of_dead he)]; rfl
  | some e =>
    have hmem : id ∈ g.ids := mem_ids.2 (contains_of_entry he)
    have hpos : 0 < g.size := hw.size_eq ▸ List.length_pos_of_mem hmem
    obtain ⟨live, hlive⟩ := Nat.exists_eq_succ_of_ne_zero (Nat.ne_of_gt hpos)
    have hps (p : NodeId) (hp : p ∈ e.node.placeholders) (n : Node)
        (hn : (g.takeOut id e).node? p = some n) : n.isParameter := by
      obtain ⟨m, hm, -, hpar⟩ := keepsOwners_takeOut hw he hn
      obtain ⟨f, hf, rfl⟩ := node?_eq_some_iff.1 hm
      exact hpar.trans ((hw.placeholders he hp).2 f hf)
    have hdrop := forM_dropPlaceholder live ((steps_takeOut he).wellFormed hw)
      (by rw [size_takeOut, hlive]; exact Nat.le_refl _) hps
    rw [hlive, removeWithin, bind_of_ok (lookup_of_entry he), modify_bind,
      bind_of_ok (later_of_ok hdrop)]
    rfl

/-! ## Copies -/

theorem map_of_ok {x : InPlace α} {f : α → β} {a : α} (h : x g = .ok a g') :
    (f <$> x) g = .ok (f a) g' := by
  change EStateM.map f x g = _
  rw [EStateM.map, h]

/-- A pass over live nodes finds each of them. -/
theorem foldlM_noteReader (m : Renaming) {ids : List NodeId} (hids : ∀ id ∈ ids, g.contains id)
    (reads : NodeSet) :
    ids.foldlM (noteReader m) reads g = .ok (ids.foldl (fun reads id ↦
      if NodeMap.contains m id ∨ (g.edges id).any reads.contains then reads.insert id ()
      else reads) reads) g := by
  induction ids generalizing reads with
  | nil => rfl
  | cons id ids ih =>
      obtain ⟨e, he⟩ := contains_iff.1 (hids id List.mem_cons_self)
      have hnote : noteReader m reads id g = .ok (if NodeMap.contains m id ∨
          (g.edges id).any reads.contains then reads.insert id () else reads) g := by
        rw [noteReader, bind_of_ok (lookup_of_entry he), edges_of_node? (node?_of_entry he)]
        rfl
      rw [List.foldlM_cons, bind_of_ok hnote]
      exact ih (fun j hj ↦ hids j (List.mem_cons_of_mem _ hj)) _

theorem readers_eq (m : Renaming) (root : NodeId) (g : Graph) :
    readers m root g = .ok (g.readers m root) g := by
  have he := explores_postOrder g true root
  exact foldlM_noteReader m (fun id hid ↦ he.live id (he.entered_of_finished id hid)) _

/-- Composites are copied in place as they are copied otherwise. -/
def Follows (copying : Copying) (copyInner : Copier) : Prop :=
  ∀ id g inner m, g.WellFormed → (∀ s ∈ inner.edges, g.contains s) → inner.isComposite →
    Renaming.Live m g → copying id inner m g =
      match copyInner id g inner m with
      | some (copy, g') => .ok (some copy) g'
      | none => .ok none g

variable {copying : Copying} {copyInner : Copier} {m : Renaming}

theorem add_of_admissible {n : Node} (hn : g.Admissible n) :
    add n g = .ok (g.insert n).1 (g.insert n).2 := by
  rw [add_eq, add_eq_ok_iff.2 ⟨hn, rfl⟩]
  rfl

theorem copyReader_eq (hf : Follows copying copyInner) (hw : g.WellFormed) (hm : m.Live g)
    {id : NodeId} (hid : g.contains id) (reads : NodeSet) :
    copyReader copying reads m id g = .ok (Graph.copyReader copyInner reads (m, g) id).1
      (Graph.copyReader copyInner reads (m, g) id).2 := by
  obtain ⟨e, he⟩ := contains_iff.1 hid
  have hedges : ∀ s ∈ e.node.edges, g.contains s := fun s hs ↦ hw.edges_live he hs
  unfold copyReader Graph.copyReader
  simp only [node?_of_entry he]
  split
  · rfl
  · rw [bind_of_ok (lookup_of_entry he)]
    cases hc : e.node.isComposite with
    | false =>
        have hadd := add_of_admissible (admissible_mapEdges hc hm hedges (hw.arity he))
        exact bind_of_ok (map_of_ok hadd)
    | true =>
        have hcopy := hf id g e.node m hw hedges hc hm
        simp only [if_true]
        cases hinner : copyInner id g e.node m with
        | none =>
            rw [hinner] at hcopy
            exact bind_of_ok hcopy
        | some copy =>
            rw [hinner] at hcopy
            exact bind_of_ok hcopy

theorem foldlM_copyReader (hf : Follows copying copyInner) (hi : copyInner.Inserts)
    (hw : g.WellFormed) (reads : NodeSet) {ids : List NodeId} (hids : ∀ id ∈ ids, g.contains id)
    (state : Renaming × Graph) (hs : Copied g state) :
    ids.foldlM (copyReader copying reads) state.1 state.2 =
      .ok (ids.foldl (Graph.copyReader copyInner reads) state).1
        (ids.foldl (Graph.copyReader copyInner reads) state).2 := by
  induction ids generalizing state with
  | nil => rfl
  | cons id ids ih =>
      have hid := hs.grows.contains (hids id List.mem_cons_self)
      rw [List.foldlM_cons, bind_of_ok (copyReader_eq hf (hs.grows.wellFormed hw) hs.live hid reads)]
      exact ih (fun j hj ↦ hids j (List.mem_cons_of_mem _ hj)) _ (hs.copyReader hi hw reads id)

theorem copyBody_eq (hf : Follows copying copyInner) (hi : copyInner.Inserts) (hw : g.WellFormed)
    (hm : m.Live g) (body : Edge) :
    copyBody copying m body g =
      .ok (g.copyBody copyInner m body).1 (g.copyBody copyInner m body).2 := by
  cases body with
  | none => rfl
  | some root =>
      have he := explores_postOrder g false root
      have hlive : ∀ id ∈ g.postOrder false root, g.contains id :=
        fun id hid ↦ he.live id (he.entered_of_finished id hid)
      have hpass := foldlM_copyReader hf hi hw (g.readers m root) hlive (m, g) ⟨.refl, hm⟩
      rw [copyBody, bind_of_ok (readers_eq m root g), get_bind, bind_of_ok hpass]
      rfl

theorem copyComposite_eq (available : List NodeId) {n : Node} {outer : Renaming}
    (hw : g.WellFormed) (hn : ∀ s ∈ n.edges, g.contains s) (hc : n.isComposite)
    (ho : outer.Live g) :
    copyComposite available n outer g =
      .ok (Graph.copyComposite available g n outer).1 (Graph.copyComposite available g n outer).2 := by
  induction available using erase_induction generalizing g n outer with
  | step available ih =>
      have hf := fresh_addPlaceholders g 0 n.placeholders.length
      have hfollows : Follows (fun id inner m ↦
          if _ : id ∈ available then some <$> copyComposite (available.erase id) inner m
          else return none) (copier available) := by
        intro id g inner m hw hedges hinner hm
        simp only [copier]
        split
        next hid => exact map_of_ok (ih id hid hw hedges hinner hm)
        · rfl
      obtain ⟨hlive, -, hadm⟩ := admissible_copyComposite (inserts_copier available) hw hn hc ho
      rw [copyComposite, change_bind, Graph.copyComposite_eq]
      refine later_of_ok ?_
      have hbody := copyBody_eq hfollows (inserts_copier available) (hf.grows.wellFormed hw) hlive
      rw [bind_of_ok (hbody _)]
      exact add_of_admissible hadm

theorem duplicate_eq (hw : g.WellFormed) (id : NodeId) :
    duplicate id g = outcome g (g.duplicate id) := by
  rw [duplicate, Graph.duplicate]
  cases he : g.entry? id with
  | none =>
    rw [bind_of_error (lookup_of_dead he), node?, he]
    rfl
  | some e =>
    rw [bind_of_ok (lookup_of_entry he), node?_of_entry he]
    cases hc : e.node.isComposite with
    | false =>
      simp only [hc]
      exact add_eq e.node g
    | true =>
      simp only [hc, if_true]
      rw [get_bind]
      exact copyComposite_eq _ hw (fun s hs ↦ hw.edges_live he hs) hc (Renaming.live_empty g)

end InPlace

/-! ## Whole edits -/

theorem InPlace.discard_eq {α : Type} {x : InPlace α} {r : Except GraphError (α × Graph)}
    (h : x g = outcome g r) : discard x g = outcome g ((r.map Prod.snd).map ((), ·)) := by
  change EStateM.map _ x g = _
  rw [EStateM.map, h]
  cases r <;> rfl

/-- An edit in place does what the checked edit does. -/
theorem inPlace_eq (hw : g.WellFormed) (a : Action) :
    a.inPlace g = InPlace.outcome g ((a.perform g).map ((), ·)) := by
  cases a with
  | add | unary | binary | construct | output => exact InPlace.discard_eq (InPlace.add_eq _ g)
  | constant | parameter | compositeUnary | compositeBinary => rfl
  | duplicate id => exact InPlace.discard_eq (InPlace.duplicate_eq hw id)
  | remove id => exact InPlace.discard_eq (InPlace.remove_eq hw id)
  | setEdge | disconnect | setBody => exact InPlace.setEdge_eq ..
  | setConstant | setUnaryOp | setBinaryOp | setDeclared =>
      simp only [Action.inPlace, Action.perform, setConstant, setUnaryOp, setBinaryOp, setDeclared]
      exact InPlace.revise_eq ..

theorem leave_eq (hw : g.WellFormed) (a : Action) : a.leave g = a.apply g := by
  rw [Action.leave, inPlace_eq hw, Action.apply]
  cases a.perform g <;> rfl

/-- Runs of edits in place go through the same graphs as runs of checked edits. -/
theorem afterInPlace_eq (actions : List Action) : afterInPlace actions = after actions := by
  induction actions using List.reverseRecOn with
  | nil => rfl
  | append_singleton actions a ih =>
      rw [afterInPlace, List.foldl_append, after_concat, ← leave_eq (wellFormed_after actions), ← ih]
      rfl

/-- Whatever has been edited in place before, an edit in place that is refused leaves the graph as
it was, and is refused before its first change, for the reason for which the checked edit is
refused.  One that is not refused leaves what the checked edit leaves. -/
theorem refused_in_place (actions : List Action) (a : Action) :
    let g := afterInPlace actions
    (∀ r g', a.inPlace g = .error r g' → g' = g ∧ ∃ e, r = .upfront e ∧ a.perform g = .error e) ∧
      ∀ g', a.inPlace g = .ok () g' ↔ a.perform g = .ok g' := by
  intro g
  have hw : g.WellFormed := by
    rw [show g = after actions from afterInPlace_eq actions]
    exact wellFormed_after actions
  rw [inPlace_eq hw]
  cases a.perform g with
  | error e =>
      refine ⟨fun r g' h ↦ ?_, fun g' ↦ ⟨fun h ↦ (by cases h), fun h ↦ (by cases h)⟩⟩
      cases h
      exact ⟨rfl, e, rfl, rfl⟩
  | ok k =>
      refine ⟨fun r g' h ↦ (by cases h), fun g' ↦ ⟨fun h ↦ ?_, fun h ↦ ?_⟩⟩ <;>
      · cases h
        rfl

end FieldGraph.Graph
