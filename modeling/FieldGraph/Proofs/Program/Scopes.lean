import FieldGraph.Proofs.Program.History

/-!
# Scopes on record

A scope lowers one node after another, each after what it reads.  So a node that has no value yet
has not been written down in the scope, and nowhere else if it is closed.  When the scope has come
to its end, it and the expansions in it have written down all that they read.
-/

namespace FieldGraph.Compile

open Relation

variable {g : Graph} {output : NodeId} {scopes : List Scope} {id : NodeId} {s s' : State}
  {h h' : History} {waiting : List NodeId}

/-! ## What a scope starts from and ends with -/

/-- A closed node does not depend on itself. -/
theorem not_transGen_self_of_isClosed (h : isClosed g id) : ¬ TransGen g.Reads id id := by
  intro hcycle
  obtain ⟨a, ha, -⟩ := TransGen.head'_iff.1 hcycle
  obtain ⟨n, hn, -⟩ := Graph.exists_node_of_mem_edges ha
  simp only [isClosed, Bool.and_eq_true, Option.isNone_iff_eq_none] at h
  have hfinished := (Graph.explores_walk g Node.edges true [id]).finished_of_root h.1 id
    List.mem_cons_self (Graph.contains_of_node? hn)
  exact Graph.not_transGen_self_of_acc (Graph.acc_of_finished hfinished) hcycle

/-- What lowering a scope on record starts from: nothing has been written down in the scope. -/
structure Starts (g : Graph) (output : NodeId) (scopes : List Scope) (s : State) (h : History) :
    Prop where
  log : Log g output (stack scopes) s h
  expanded : Expanded g h (stack scopes)
  fresh : ∀ e ∈ h, e.stack ≠ stack scopes

/-- What has been written down since then lies in the scope or in expansions of its composites, and
what is read there has been written down, too. -/
def Since (g : Graph) (st : List NodeId) (start h : History) : Prop :=
  ∃ more, h = start ++ more ∧ ∀ e ∈ more, st <:+ e.stack ∧ Complete g h e

/-- What lowering a scope on record ends with. -/
structure Recounts (g : Graph) (output : NodeId) (scopes : List Scope) (root : NodeId)
    (start : History) (s : State) (h : History) : Prop where
  log : Log g output (stack scopes) s h
  since : Since g (stack scopes) start h
  root : ∃ e ∈ h, e.node = root

/-- What holds of a scope between two nodes. -/
structure Progress (g : Graph) (output : NodeId) (available : List NodeId) (scopes : List Scope)
    (root : NodeId) (start : History) (own : NodeMap Operand) (s : State) (h : History)
    (done : List NodeId) : Prop where
  enters : Enters g output available scopes root s
  held : Held g output scopes own s
  kept : ∀ j ∈ done, g.contains j → (kept g scopes own s j).isSome
  log : Log g output (stack scopes) s h
  expanded : Expanded g h (stack scopes)
  since : Since g (stack scopes) start h
  own : ∀ j, (own.get? j).isSome → ∃ e ∈ h, e.node = j
  done : ∀ e ∈ h, e.stack = stack scopes → e.node ∈ done

variable {available : List NodeId} {root : NodeId} {start : History} {own : NodeMap Operand}
  {pre post : List NodeId}

namespace Progress

/-- What has a value has been written down. -/
theorem written (hp : Progress g output available scopes root start own s h pre) {j : NodeId}
    (hj : (Compile.kept g scopes own s j).isSome) : ∃ e ∈ h, e.node = j := by
  unfold Compile.kept at hj
  split at hj
  · exact hp.log.shared j hj
  · exact hp.own j hj

/-- A node of the scope without a value may be written down. -/
theorem new (hp : Progress g output available scopes root start own s h pre)
    (hsplit : (g.walk Node.operands true [root]).finished = pre ++ id :: post)
    (hreach : ReflTransGen g.Reads root id) (hkept : Compile.kept g scopes own s id = none) :
    New g h (stack scopes) id := by
  rintro e he rfl
  refine ⟨fun hc ↦ ?_, fun hst ↦ ?_⟩
  · rcases hp.log.closed e he hc with hshared | hopen
    · have hkeep : Compile.kept g scopes own s e.node = s.shared.get? e.node :=
        if_pos (by rw [isShared, hc, Bool.or_true])
      rw [← hkeep, hkept] at hshared
      cases hshared
    · obtain ⟨scope, hscope, heq⟩ := List.mem_map.1 hopen
      have hcycle := hp.enters.nested scope hscope
      rw [heq] at hcycle
      exact not_transGen_self_of_isClosed hc (hcycle.trans_left hreach)
  · have hnodup := (Graph.explores_walk g Node.operands true [root]).nodup
    rw [hsplit] at hnodup
    exact (List.nodup_append.1 hnodup).2.2 _ (hp.done e he hst) _ List.mem_cons_self rfl

end Progress

/-! ## Nodes and their expansions -/

/-- A node has been written down, and what its expansion comes to after it. -/
structure Written (g : Graph) (output : NodeId) (scopes : List Scope) (id : NodeId)
    (start : History) (s : State) (h : History) : Prop where
  log : Log g output (id :: stack scopes) s h
  events : ∃ emitted more, h = start ++ ⟨scopes, id, emitted⟩ :: more ∧
    Complete g h ⟨scopes, id, emitted⟩ ∧
    ∀ e ∈ more, (id :: stack scopes) <:+ e.stack ∧ Complete g h e

/-- A composite has been written down once its body has been. -/
theorem Recounts.composite {n : Node} {body : NodeId} {bindings : List (NodeId × Operand)}
    (hr : Recounts g output (⟨id, bindings⟩ :: scopes) body (h ++ [⟨scopes, id, []⟩]) s' h')
    (hn : g.node? id = some n) (hjoin : n.body?.join = some body)
    (hread : ∀ a ∈ n.operands, g.contains a → ∃ e ∈ h, e.node = a) :
    Written g output scopes id h s' h' := by
  obtain ⟨more, rfl, hmore⟩ := hr.since
  rw [List.append_assoc, List.singleton_append] at hr hmore ⊢
  refine ⟨hr.log, [], more, rfl, fun a ha hl ↦ ?_, hmore⟩
  rw [Graph.Reads, Graph.edges_of_node? hn, Node.edges_eq_operands_append, hjoin] at ha
  rcases List.mem_append.1 ha with ha | ha
  · obtain ⟨e, he, hnode⟩ := hread a ha hl
    exact ⟨e, List.mem_append_left _ he, hnode⟩
  · rw [List.mem_singleton.1 ha]
    exact hr.root

/-- Binding the arguments of a composite writes down nothing. -/
theorem ends_bindArguments {n : Node} (hlog : Log g output waiting s h)
    (hv : Visited g s.instrs output scopes id) (hn : g.node? id = some n)
    (hop : ∀ a ∈ n.operands, Resolves g scopes s (operandIn g scopes own) a) :
    Ends (.silent (bindArguments id (operandIn g scopes own) 0 n.arguments)) s h
      (fun bound s' h' ↦ (s' = s ∧ h' = h) ∧ ∃ bindings : List Binding,
        n.arguments = bindings.map Binding.argument ∧ bound = bindings.map Binding.bound ∧
        ∀ b ∈ bindings, Lowered g s.instrs scopes b.source b.value) (Clashes g output) := by
  have hargs := outcome_bindArguments hv hn hop 0 fun k a hk ↦ by rwa [Nat.zero_add]
  have hreads := reads_bindArguments id 0 fun p a hmem ↦
    hop a (Node.mem_operands_of_mem_arguments hmem rfl)
  exact .silent ((hargs.and hreads).mono (fun _ _ hb ↦ ⟨⟨hb.2, rfl⟩, hb.1.2⟩) fun e he ↦
    hlog.clashes he.2)

/-- The body of a composite can be lowered on record. -/
def Opens (g : Graph) (output : NodeId) (available : List NodeId) (scopes : List Scope) : Prop :=
  ∀ {id body bindings s h}, id ∈ available →
    Enters g output (available.erase id) (⟨id, bindings⟩ :: scopes) body s →
    Starts g output (⟨id, bindings⟩ :: scopes) s h →
    Ends (recordScope g (available.erase id) (⟨id, bindings⟩ :: scopes) body) s h
      (fun _ s' h' ↦ Recounts g output (⟨id, bindings⟩ :: scopes) body h s' h') (Clashes g output)

namespace Progress

variable {n : Node}

/-- Writing down a node that is no composite. -/
theorem ends_emitting (hp : Progress g output available scopes root start own s h pre)
    (hv : Visited g s.instrs output scopes id) (hn : g.node? id = some n)
    (hc : n.isComposite = false) (hnew : New g h (stack scopes) id)
    (hop : ∀ a ∈ n.operands, Resolves g scopes s (operandIn g scopes own) a)
    (hread : ∀ a ∈ n.operands, g.contains a → ∃ e ∈ h, e.node = a)
    (expand : NodeId → Lower Operand) :
    Ends (.emitting scopes id (lowerNode scopes (operandIn g scopes own) expand id n)) s h
      (fun _ s' h' ↦ Written g output scopes id h s' h') (Clashes g output) := by
  refine .emitting ((issues_lowerNode hc hop expand).mono (fun v s' hi ↦ ?_) fun e he ↦
    hp.log.clashes he)
  obtain ⟨emitted, hcode, hemits⟩ := hi.code
  rw [hcode, List.drop_left]
  have hmade : Event.Made g output s'.instrs ⟨scopes, id, emitted⟩ :=
    ⟨hv.mono ⟨emitted, hcode.symm⟩, n, hn, hemits⟩
  have hparams (index : Nat) (shape : Shape) (hs : s'.params[index]?.join = some shape) :
      s.params[index]?.join = some shape ∨
        (g.node? id = some (.parameter index (.of shape)) ∧ bound? scopes id = none) :=
    (hi.params index shape hs).imp_right fun h ↦ ⟨hn.trans (congrArg some h.1), h.2⟩
  refine ⟨hp.log.snoc hp.expanded hnew hcode hmade hi.shared_eq hparams (hi.loaded hp.log.loaded),
    emitted, [], rfl, fun a ha hl ↦ ?_, fun _ he ↦ by cases he⟩
  rw [Graph.Reads, Graph.edges_of_node? hn, ← Node.operands_of_not_composite hc] at ha
  obtain ⟨e, he, hnode⟩ := hread a ha hl
  exact ⟨e, List.mem_append_left _ he, hnode⟩

/-- The body of a composite that has been written down is a scope of its own. -/
theorem starts_body (hp : Progress g output available scopes root start own s h pre)
    (hn : g.node? id = some n) (hc : n.isComposite) (hnew : New g h (stack scopes) id)
    (hlog : Log g output (id :: stack scopes) s (h ++ [⟨scopes, id, []⟩]))
    (bindings : List (NodeId × Operand)) :
    Starts g output (⟨id, bindings⟩ :: scopes) s (h ++ [⟨scopes, id, []⟩]) where
  log := hlog
  expanded := by
    rintro c rest ⟨⟩
    exact ⟨_, List.mem_append_right _ List.mem_cons_self, rfl, rfl, n, hn, hc⟩
  fresh e he hst := by
    rcases List.mem_append.1 he with he | he
    · -- the composite would have been written down in this scope before
      obtain ⟨e', he', hnode, hst', -⟩ := hp.log.expanded e he id (stack scopes) hst
      exact (hnew e' he' hnode).2 hst'
    · rw [List.mem_singleton.1 he] at hst
      exact List.ne_cons_self hst

/-- Writing down a composite, and its expansion. -/
theorem ends_expanding (hp : Progress g output available scopes root start own s h pre)
    (hv : Visited g s.instrs output scopes id) (hn : g.node? id = some n) (hc : n.isComposite)
    (hreach : ReflTransGen g.Reads root id) (hnew : New g h (stack scopes) id)
    (hop : ∀ a ∈ n.operands, Resolves g scopes s (operandIn g scopes own) a)
    (hread : ∀ a ∈ n.operands, g.contains a → ∃ e ∈ h, e.node = a)
    (hbody : Opens g output available scopes) :
    Ends (do
        Recorded.note ⟨scopes, id, []⟩
        recordExpand g (recording g available) scopes own n id) s h
      (fun _ s' h' ↦ Written g output scopes id h s' h') (Clashes g output) := by
  have hlog : Log g output (id :: stack scopes) s (h ++ [⟨scopes, id, []⟩]) :=
    hp.log.snoc hp.expanded hnew (List.append_nil _).symm
      ⟨hv, n, hn, emits_none (.composite hc)⟩ rfl (fun _ _ hs ↦ .inl hs) hp.log.loaded
  refine .note ?_
  unfold recordExpand
  cases hjoin : n.body?.join with
  | none => exact .throw (by rintro _ _ _ _ ⟨⟩)
  | some body =>
      simp only
      by_cases hid : id ∈ available
      · have hrecording : recording g available id = some (recordScope g (available.erase id)) :=
          if_pos hid
        rw [hrecording]
        refine .seq (ends_bindArguments hlog hv hn hop) ?_
        rintro bound s' h₁ ⟨⟨rfl, rfl⟩, bindings, hargs, rfl, ha⟩
        have henters := hp.enters.body hreach (Graph.reads_body hn hjoin) hp.held.sound
          (hv.body hn hjoin hargs ha)
        exact (hbody hid henters (hp.starts_body hn hc hnew hlog _)).mono
          (fun _ _ _ hr ↦ hr.composite hn hjoin hread) fun _ _ he ↦ he
      · have hrecording : recording g available id = none := if_neg hid
        rw [hrecording]
        exact .throw (by rintro _ _ _ _ ⟨⟩)

/-- Going on from a node that has been written down. -/
theorem advance (hp : Progress g output available scopes root start own s h pre)
    {own' : NodeMap Operand} {s' s'' : State} (hw : Written g output scopes id h s' h')
    (hl : Log g output (stack scopes) s'' h')
    (hown : ∀ j, (own'.get? j).isSome → (own.get? j).isSome ∨ j = id)
    (hadv : Advances g output scopes own s own' s'')
    (hkept : g.contains id → (Compile.kept g scopes own' s'' id).isSome) :
    Progress g output available scopes root start own' s'' h' (pre ++ [id]) := by
  obtain ⟨emitted, more, rfl, hcomplete, hmore⟩ := hw.events
  have hle : ∀ e ∈ h, e ∈ h ++ ⟨scopes, id, emitted⟩ :: more := fun e he ↦
    List.mem_append_left _ he
  constructor
  case enters =>
    exact ⟨hadv.held.sound, hp.enters.visited.mono hadv.onward.code, hp.enters.spare,
      hp.enters.nested⟩
  case held => exact hadv.held
  case kept =>
    intro j hj hl
    rcases List.mem_append.1 hj with hj | hj
    · exact hadv.kept j (hp.kept j hj hl)
    · cases List.mem_singleton.1 hj
      exact hkept hl
  case log => exact hl
  case expanded => exact hp.expanded.mono hle
  case since =>
    obtain ⟨since, rfl, hsince⟩ := hp.since
    refine ⟨since ++ ⟨scopes, id, emitted⟩ :: more, List.append_assoc .., fun e he ↦ ?_⟩
    rcases List.mem_append.1 he with he | he
    · exact ⟨(hsince e he).1, (hsince e he).2.mono hle⟩
    · rcases List.mem_cons.1 he with rfl | he
      · exact ⟨List.suffix_rfl, hcomplete⟩
      · exact ⟨(List.suffix_cons ..).trans (hmore e he).1, (hmore e he).2⟩
  case own =>
    intro j hj
    rcases hown j hj with hj | rfl
    · obtain ⟨e, he, hnode⟩ := hp.own j hj
      exact ⟨e, hle e he, hnode⟩
    · exact ⟨_, List.mem_append_right _ List.mem_cons_self, rfl⟩
  case done =>
    intro e he hst
    rcases List.mem_append.1 he with he | he
    · exact List.mem_append_left _ (hp.done e he hst)
    · rcases List.mem_cons.1 he with rfl | he
      · exact List.mem_append_right _ List.mem_cons_self
      · have hlength := (hmore e he).1.length_le
        rw [hst, List.length_cons] at hlength
        omega

/-- Passing over a node. -/
theorem pass (hp : Progress g output available scopes root start own s h pre)
    (hkept : g.contains id → (Compile.kept g scopes own s id).isSome) :
    Progress g output available scopes root start own s h (pre ++ [id]) :=
  { hp with
    kept := fun j hj hl ↦ by
      rcases List.mem_append.1 hj with hj | hj
      · exact hp.kept j hj hl
      · cases List.mem_singleton.1 hj
        exact hkept hl
    done := fun e he hst ↦ List.mem_append_left _ (hp.done e he hst) }

/-- One node of a scope that has no value yet. -/
theorem ends_recordNode (hp : Progress g output available scopes root start own s h pre)
    (hsplit : (g.walk Node.operands true [root]).finished = pre ++ id :: post)
    (hkept : Compile.kept g scopes own s id = none) (hn : g.node? id = some n)
    (hbody : Opens g output available scopes) :
    Ends (recordNode g (recording g available) scopes own n id) s h
      (fun _ s' h' ↦ Written g output scopes id h s' h') (Clashes g output) := by
  have hexp := Graph.explores_walk g Node.operands true [root]
  have hleads : ReflTransGen (g.Leads Node.operands) root id :=
    Enters.leads (hexp.entered_of_finished id (by rw [hsplit]; simp))
  have hreach : ReflTransGen g.Reads root id :=
    Graph.reaches_of_leads (fun _ _ ↦ Node.mem_edges_of_mem_operands) hleads
  have hv := hp.enters.visited.of_leads hleads
  have hnew := hp.new hsplit hreach hkept
  have hlowered (a : NodeId) (ha : a ∈ n.operands) (hl : g.contains a) :
      (Compile.kept g scopes own s a).isSome :=
    hp.kept a (Graph.finished_ordered hsplit a (by rwa [Graph.ahead_of_node? hn]) hl) hl
  have hop (a : NodeId) (ha : a ∈ n.operands) :
      Resolves g scopes s (operandIn g scopes own) a := hp.held.resolves (hlowered a ha)
  have hread (a : NodeId) (ha : a ∈ n.operands) (hl : g.contains a) : ∃ e ∈ h, e.node = a :=
    hp.written (hlowered a ha hl)
  unfold recordNode
  split
  next hc => exact hp.ends_expanding hv hn hc hreach hnew hop hread hbody
  next hc => exact hp.ends_emitting hv hn (Bool.eq_false_iff.2 hc) hnew hop hread _

/-- One node of a scope, on record. -/
theorem ends_recordNext (hp : Progress g output available scopes root start own s h pre)
    (hsplit : (g.walk Node.operands true [root]).finished = pre ++ id :: post)
    (hbody : Opens g output available scopes) :
    Ends (recordNext g (recording g available) scopes own id) s h
      (fun own' s' h' ↦ Progress g output available scopes root start own' s' h' (pre ++ [id]))
      (Clashes g output) := by
  have hfind : find? g scopes own id s = .ok (Compile.kept g scopes own s id, s) := rfl
  have hfound : Ends (.silent (find? g scopes own id)) s h
      (fun found s' h' ↦ found = Compile.kept g scopes own s id ∧ s' = s ∧ h' = h)
      (Clashes g output) := by
    refine .silent ⟨fun v s' heq ↦ ?_, fun e heq ↦ by rw [hfind] at heq; cases heq⟩
    rw [hfind] at heq
    cases heq
    exact ⟨rfl, rfl, rfl⟩
  have hwritten : Ends (recordNext g (recording g available) scopes own id) s h
      (fun own' s'' h' ↦ (own' = own ∧ s'' = s ∧ h' = h) ∨
        ∃ s', Written g output scopes id h s' h' ∧ Log g output (stack scopes) s'' h' ∧
          ∀ j, (own'.get? j).isSome → (own.get? j).isSome ∨ j = id) (Clashes g output) := by
    unfold recordNext
    refine .seq hfound ?_
    rintro found s₁ h₁ ⟨rfl, rfl, rfl⟩
    split
    next n hkept hn =>
      refine .seq (hp.ends_recordNode hsplit hkept hn hbody) fun v s' h' hw ↦ ?_
      obtain ⟨emitted, more, heq, -⟩ := hw.events
      have hmem : ⟨scopes, id, emitted⟩ ∈ h' :=
        heq ▸ List.mem_append_right _ List.mem_cons_self
      exact .silent ((hw.log.keep ⟨_, hmem, rfl⟩ own v).imp fun _ _ hl ↦ .inr ⟨s', hw, hl⟩)
    next => exact .pure (.inl ⟨rfl, rfl, rfl⟩)
  have hlower := hp.enters.outcome_lowerNext (fun _ h' ↦ outcome_lowerScope h') hsplit hp.held
    (.refl s) hp.kept
  have herases := erases_recordNext (g := g)
    (erases_recording fun id _ ↦ erases_recordScope g (available.erase id)) scopes own id
  refine (hwritten.of_erases herases (hlower.mono (fun _ _ h ↦ h) fun _ _ ↦ trivial)).mono ?_
    fun _ _ he ↦ he
  rintro own' s'' h' ⟨⟨rfl, rfl, rfl⟩ | ⟨s', hw, hl, hown⟩, hadv, hkept⟩
  · exact hp.pass hkept
  · exact hp.advance hw hl hown hadv hkept

end Progress

/-- What one step keeps, a run over a list does. -/
theorem Ends.foldlM {α β : Type} {f : β → α → Recorded β} {all : List α}
    {motive : β → State → History → List α → Prop} {err : CompileError → History → Prop}
    (hf : ∀ {pre post a b s h}, all = pre ++ a :: post → motive b s h pre →
      Ends (f b a) s h (fun b' s' h' ↦ motive b' s' h' (pre ++ [a])) err)
    {done todo : List α} (hall : all = done ++ todo) {b : β} (hb : motive b s h done) :
    Ends (todo.foldlM f b) s h (fun b' s' h' ↦ motive b' s' h' all) err := by
  induction todo generalizing done b s h with
  | nil =>
      rw [List.append_nil] at hall
      exact .pure (hall ▸ hb)
  | cons a todo ih =>
      rw [List.foldlM_cons]
      exact .seq (hf hall hb) fun b' s' h' hb' ↦
        ih (by rw [hall, List.append_assoc, List.singleton_append]) hb'

theorem Starts.progress (hstarts : Starts g output scopes s h)
    (henters : Enters g output available scopes root s) :
    Progress g output available scopes root h NodeMap.empty s h [] where
  enters := henters
  held := ⟨henters.sound, henters.visited.opened, fun _ _ hv ↦ by cases hv⟩
  kept _ hj := by cases hj
  log := hstarts.log
  expanded := hstarts.expanded
  since := ⟨[], (List.append_nil h).symm, fun _ he ↦ by cases he⟩
  own _ hj := by cases hj
  done e he hst := absurd hst (hstarts.fresh e he)

/-- What is looked up has a value. -/
theorem outcome_operandIn : Outcome (operandIn g scopes own id) s
    (fun _ s' ↦ s' = s ∧ (kept g scopes own s id).isSome) fun e ↦ e = .unknownNode id := by
  have hfind : find? g scopes own id s = .ok (kept g scopes own s id, s) := rfl
  unfold operandIn
  refine .bind ⟨fun v s' heq ↦ ?_, fun e heq ↦ by rw [hfind] at heq; cases heq⟩
  rw [hfind] at heq
  cases heq
  split
  next v hv => exact .pure ⟨rfl, by rw [hv]; rfl⟩
  next => exact .throw rfl

/-- What a scope writes down. -/
theorem ends_recordScope (henters : Enters g output available scopes root s)
    (hstarts : Starts g output scopes s h) :
    Ends (recordScope g available scopes root) s h
      (fun _ s' h' ↦ Recounts g output scopes root h s' h') (Clashes g output) := by
  -- every expansion uses up a composite that may be opened
  induction available using erase_induction generalizing scopes root s h with
  | step available ih =>
      have hbody : Opens g output available scopes := fun hmem henters hstarts ↦
        ih _ hmem henters hstarts
      have hall := Ends.foldlM (f := recordNext g (recording g available) scopes)
        (fun hsplit hp ↦ Progress.ends_recordNext hp hsplit hbody) (List.nil_append _).symm
        (hstarts.progress henters)
      rw [recordScope_eq, recordWith]
      refine .seq hall fun own s' h' hp ↦ ?_
      have hroot : Outcome (operandIn g scopes own root) s'
          (fun _ s'' ↦ Recounts g output scopes root h s'' h') (Clashes g output · h') := by
        refine outcome_operandIn.mono (fun v s'' hv ↦ ?_) fun e he ↦ ?_
        · obtain ⟨rfl, hkept⟩ := hv
          exact ⟨hp.log, hp.since, hp.written hkept⟩
        · rw [he]
          rintro _ _ _ _ ⟨⟩
      split
      · exact .throw (by rintro _ _ _ _ ⟨⟩)
      · exact .silent hroot

/-! ## Whole programs -/

theorem starts_init (g : Graph) (output : NodeId) : Starts g output [] State.init [] where
  log := log_init g output
  expanded _ _ heq := by cases heq
  fresh _ he := by cases he

/-- What compiling an output writes down, in the end or before it fails. -/
theorem ends_history (g : Graph) (output : NodeId) :
    Ends (recordScope g g.composites [] output) State.init []
      (fun _ s h ↦ Recounts g output [] output [] s h) (Clashes g output) :=
  ends_recordScope (enters_init g output) (starts_init g output)

/-- A program is what its history leaves in the end. -/
theorem exists_state_of_compile {expected : Option ValueType} {p : Program}
    (hp : g.compile output expected = .ok p) :
    ∃ (s : State) (v : Operand), p = ⟨s.instrs, v.reg, v.shape, s.params⟩ ∧
      Recounts g output [] output [] s (g.history output) := by
  rw [compile_eq, compileBy] at hp
  split at hp
  · cases hp
  next source hn =>
    have herases := erases_recordScope g g.composites [] output State.init []
    cases hrun : lowerScope g g.composites [] output State.init with
    | error e =>
        rw [hrun] at hp
        cases hp
    | ok r =>
        rw [hrun] at hp herases
        exact ⟨r.2, r.1, eq_of_conclude hp,
          (ends_history g output).ok r.1 r.2 _ (Prod.ext herases rfl)⟩
  · cases hp

/-- The history of a program gives its code, and has come to its end. -/
theorem exists_recounts_of_compile {expected : Option ValueType} {p : Program}
    (hp : g.compile output expected = .ok p) :
    ∃ s, p.instrs = s.instrs ∧ Recounts g output [] output [] s (g.history output) := by
  obtain ⟨s, v, rfl, hr⟩ := exists_state_of_compile hp
  exact ⟨s, rfl, hr⟩

/-- A conflict of parameters that ends compiling is one with a parameter in the history. -/
theorem clashes_of_compile {e : CompileError} (he : g.compile output none = .error e) :
    Clashes g output e (g.history output) := by
  rw [compile_eq, compileBy] at he
  split at he
  · cases he
    rintro _ _ _ _ ⟨⟩
  next source hn =>
    have herases := erases_recordScope g g.composites [] output State.init []
    cases hrun : lowerScope g g.composites [] output State.init with
    | error e' =>
        rw [hrun] at he herases
        cases he
        exact (ends_history g output).err e _ (Prod.ext herases rfl)
    | ok r =>
        rw [hrun] at he
        cases he
  · cases he
    rintro _ _ _ _ ⟨⟩

end FieldGraph.Compile
