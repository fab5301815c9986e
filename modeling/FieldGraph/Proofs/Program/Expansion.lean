import FieldGraph.Proofs.Program.Instructions

/-!
# Lowering scopes

A scope lowers the nodes its root reads in the order in which a walk finishes them, so that operands
are always resolved; the body of a composite is a scope again.  What a scope keeps for a node,
shared with all scopes or its own, stands for the node.
-/

namespace FieldGraph.Compile

open Relation

variable {g : Graph} {output : NodeId} {scopes : List Scope} {id : NodeId} {v : Operand}
  {s s' : State} {operand : NodeId → Lower Operand}

/-! ## One node -/

theorem outcome_lowerNode (hs : Sound g output s) (hv : Visited g s.instrs output scopes id)
    {n : Node} (hn : g.node? id = some n)
    (hop : ∀ a ∈ n.operands, Resolves g scopes s operand a) {expand : NodeId → Lower Operand}
    (hexpand : n.isComposite → Outcome (expand id) s (Stands g output scopes id s) (Blamed g output)) :
    Outcome (lowerNode scopes operand expand id n) s (Stands g output scopes id s)
      (Blamed g output) := by
  have input {port : Port} {e : Edge} (hc : n.isComposite = false) (hp : n.port? port = some e) :=
    outcome_wired hv hn hc hp hop
  cases n with
  | constant c => exact outcome_constant hs hv.opened hn
  | parameter index declared => exact outcome_parameter hs hv hn
  | output e =>
      refine (input rfl rfl).imp ?_
      rintro v s' ⟨rfl, a, rfl, ha⟩
      exact ⟨hs, .refl _, .output hn ha⟩
  | unary op e =>
      refine .seq (input rfl rfl) ?_
      rintro x s' ⟨rfl, a, rfl, ha⟩
      exact outcome_unary hs hv hn ha
  | binary op l r =>
      refine .seq (input rfl rfl) ?_
      rintro x s' ⟨rfl, a, rfl, ha⟩
      refine .seq (input rfl rfl) ?_
      rintro y s' ⟨rfl, b, rfl, hb⟩
      exact outcome_binary hs hv hn ha hb
  | construct slots =>
      have hslots := outcome_lowerSlots hv hn
        (fun a ha ↦ hop a (List.mem_filterMap.2 ⟨some a, ha, rfl⟩)) 0
        (fun k e hk ↦ by rwa [Nat.zero_add])
      refine .seq hslots ?_
      rintro rs s' ⟨rfl, bs, rfl, rfl, hbs⟩
      split
      next shape hshape =>
        rw [List.length_map] at hshape
        refine outcome_emit hs hv.opened (fun _ h ↦ by cases h) (.construct (fun r hr ↦ ?_) ?_) ?_
        · obtain ⟨b, hb, rfl⟩ := List.mem_map.1 hr
          exact (hbs b hb).shapeAt? hv.opened
        · rwa [List.length_map]
        · exact .construct hn (fun b hb ↦ (hbs b hb).mono (List.prefix_append ..)) hshape
            (writes_append ..)
      next hshape => exact .throw (hv.blamed (.unsupportedArity hn hshape))
  | compositeUnary | compositeBinary => exact hexpand rfl

theorem outcome_expand (hs : Sound g output s) (hv : Visited g s.instrs output scopes id)
    {n : Node} (hn : g.node? id = some n) (hc : n.isComposite) {own : NodeMap Operand}
    (hop : ∀ a ∈ n.operands, Resolves g scopes s (operandIn g scopes own) a) {opener : Opener}
    (hopen : ∀ lower body bindings, opener id = some lower → n.body?.join = some body →
      Visited g s.instrs output (⟨id, bindings⟩ :: scopes) body →
      Outcome (lower (⟨id, bindings⟩ :: scopes) body) s
        (Stands g output (⟨id, bindings⟩ :: scopes) body s) (Blamed g output))
    (hnone : opener id = none → TransGen g.Reads id id) :
    Outcome (expand g opener scopes own n id) s (Stands g output scopes id s) (Blamed g output) := by
  unfold expand
  split
  next body hbody =>
    split
    next lower hlower =>
      have hargs := outcome_bindArguments hv hn hop 0
        (fun k a hk ↦ by rwa [Nat.zero_add])
      refine .seq hargs ?_
      rintro bound s' ⟨rfl, bindings, hargs, rfl, ha⟩
      have hin := hv.body hn hbody hargs ha
      refine (hopen lower body _ hlower hbody hin).imp fun v s' hl ↦ ?_
      exact ⟨hl.sound, hl.onward, .composite hn hbody hargs
        (fun b hb ↦ (ha b hb).mono hl.onward.code) hl.lowered⟩
    next hlower => exact .throw (hv.blamed (.cycle (hnone hlower)))
  next hbody =>
    have hnone : n.body?.join = none := by
      cases h : n.body?.join with
      | none => rfl
      | some body => exact absurd h (hbody body)
    exact .throw (hv.blamed (.missingBody hn hc hnone))

/-! ## The values of a scope -/

/-- The value of a node that is kept in the current scope. -/
def kept (g : Graph) (scopes : List Scope) (own : NodeMap Operand) (s : State) (id : NodeId) :
    Option Operand :=
  if isShared g scopes id then s.shared.get? id else own.get? id

/-- Every value kept in a scope stands for its node. -/
structure Held (g : Graph) (output : NodeId) (scopes : List Scope) (own : NodeMap Operand)
    (s : State) : Prop where
  sound : Sound g output s
  opened : Opened g s.instrs scopes
  own : ∀ id v, own.get? id = some v → Lowered g s.instrs scopes id v

/-- The values of a scope after more nodes have been lowered: none is lost. -/
structure Advances (g : Graph) (output : NodeId) (scopes : List Scope) (own : NodeMap Operand)
    (s : State) (own' : NodeMap Operand) (s' : State) : Prop where
  held : Held g output scopes own' s'
  onward : Extends s s'
  kept : ∀ j, (kept g scopes own s j).isSome → (kept g scopes own' s' j).isSome

variable {own own' : NodeMap Operand}

theorem Held.lowered (h : Held g output scopes own s) (hv : kept g scopes own s id = some v) :
    Lowered g s.instrs scopes id v := by
  unfold kept at hv
  split at hv
  next hshared => exact (lowered_nil_iff hshared h.opened.bindPlaceholders).1 (h.sound.shared _ _ hv)
  · exact h.own _ _ hv

theorem Held.refl (h : Held g output scopes own s) : Advances g output scopes own s own s :=
  ⟨h, .refl s, fun _ h ↦ h⟩

theorem Advances.trans {own'' : NodeMap Operand} {s'' : State}
    (h : Advances g output scopes own s own' s') (h' : Advances g output scopes own' s' own'' s'') :
    Advances g output scopes own s own'' s'' :=
  ⟨h'.held, h.onward.trans h'.onward, fun j hj ↦ h'.kept j (h.kept j hj)⟩

/-- The values of a scope after code has been added elsewhere. -/
theorem Held.onward (h : Held g output scopes own s) (hs : Sound g output s') (he : Extends s s') :
    Advances g output scopes own s own s' := by
  refine ⟨⟨hs, h.opened.mono he.code, fun j w hw ↦ (h.own j w hw).mono he.code⟩, he, fun j hj ↦ ?_⟩
  unfold kept at hj ⊢
  split
  next hshared =>
    rw [if_pos hshared] at hj
    exact he.shared j hj
  next hshared => rwa [if_neg hshared] at hj

theorem Held.resolves (h : Held g output scopes own s) {a : NodeId}
    (ha : g.contains a → (kept g scopes own s a).isSome) :
    Resolves g scopes s (operandIn g scopes own) a := by
  have hfind : find? g scopes own a s = .ok (kept g scopes own s a, s) := rfl
  unfold Resolves operandIn
  refine .bind ⟨fun v s' heq ↦ ?_, fun e heq ↦ by rw [hfind] at heq; cases heq⟩
  rw [hfind] at heq
  cases heq
  split
  next v hv => exact .pure ⟨rfl, h.lowered hv⟩
  next hv =>
    refine .throw ⟨rfl, ?_⟩
    cases hn : g.node? a with
    | none => rfl
    | some n =>
        have := ha (Graph.contains_of_node? hn)
        rw [hv] at this
        cases this

/-- Keeping a value that stands for its node. -/
theorem outcome_keep (h : Held g output scopes own s) (hv : Lowered g s.instrs scopes id v)
    {err : CompileError → Prop} :
    Outcome (keep g scopes own id v) s (fun own' s' ↦ Advances g output scopes own s own' s' ∧
      (kept g scopes own' s' id).isSome) err := by
  unfold keep
  by_cases hshared : isShared g scopes id
  · refine ⟨fun own' s' heq ↦ ?_, fun e heq ↦ by rw [if_pos hshared] at heq; cases heq⟩
    rw [if_pos hshared] at heq
    cases heq
    have hget (j : NodeId) (hj : id = j ∨ (s.shared.get? j).isSome) :
        ((s.shared.insert id v).get? j).isSome := by
      rw [NodeMap.get?_insert]
      split
      · rfl
      next hne => exact hj.resolve_left hne
    have hsound : Sound g output { s with shared := s.shared.insert id v } := by
      refine ⟨fun j w hw ↦ ?_, h.sound.loads, h.sound.params, h.sound.demanded, h.sound.last,
        h.sound.owned, h.sound.typed⟩
      rw [NodeMap.get?_insert] at hw
      split at hw
      next hj =>
        subst hj
        cases hw
        exact (lowered_nil_iff hshared h.opened.bindPlaceholders).2 hv
      · exact h.sound.shared j w hw
    refine ⟨h.onward hsound ⟨List.prefix_refl _, fun j hj ↦ hget j (.inr hj)⟩, ?_⟩
    rw [kept, if_pos hshared]
    exact hget id (.inl rfl)
  · refine ⟨fun own' s' heq ↦ ?_, fun e heq ↦ by rw [if_neg hshared] at heq; cases heq⟩
    rw [if_neg hshared] at heq
    cases heq
    refine ⟨⟨⟨h.sound, h.opened, fun j w hw ↦ ?_⟩, .refl _, fun j hj ↦ ?_⟩, ?_⟩
    · rw [NodeMap.get?_insert] at hw
      split at hw
      next hj =>
        subst hj
        cases hw
        exact hv
      · exact h.own j w hw
    · unfold kept at hj ⊢
      split
      next hj' => rwa [if_pos hj'] at hj
      next hj' =>
        rw [if_neg hj'] at hj
        rw [NodeMap.get?_insert]
        split
        · rfl
        · exact hj
    · rw [kept, if_neg hshared, NodeMap.get?_insert, if_pos rfl]
      rfl

/-! ## Whole scopes -/

theorem outcome_lowerNext (h : Held g output scopes own s)
    (hv : Visited g s.instrs output scopes id)
    (hop : ∀ a ∈ g.ahead Node.operands id, g.contains a → (kept g scopes own s a).isSome)
    {opener : Opener}
    (hopen : ∀ n lower body bindings, g.node? id = some n → opener id = some lower →
      n.body?.join = some body → Visited g s.instrs output (⟨id, bindings⟩ :: scopes) body →
      Outcome (lower (⟨id, bindings⟩ :: scopes) body) s
        (Stands g output (⟨id, bindings⟩ :: scopes) body s) (Blamed g output))
    (hnone : ∀ n, g.node? id = some n → n.isComposite → opener id = none →
      TransGen g.Reads id id) :
    Outcome (lowerNext g opener scopes own id) s (fun own' s' ↦ Advances g output scopes own s own' s' ∧
      (g.contains id → (kept g scopes own' s' id).isSome)) (Blamed g output) := by
  have hfind : find? g scopes own id s = .ok (kept g scopes own s id, s) := rfl
  unfold lowerNext
  refine .bind ⟨fun v s' heq ↦ ?_, fun e heq ↦ by rw [hfind] at heq; cases heq⟩
  rw [hfind] at heq
  cases heq
  split
  next n hkept hn =>
    have hop' : ∀ a ∈ n.operands, Resolves g scopes s (operandIn g scopes own) a := fun a ha ↦
      h.resolves (hop a (by rwa [Graph.ahead_of_node? hn]))
    have hnode := outcome_lowerNode h.sound hv hn hop' fun hc ↦
      outcome_expand h.sound hv hn hc hop'
        (fun lower body bindings ↦ hopen n lower body bindings hn) (hnone n hn hc)
    refine .seq hnode fun v s' hv ↦ ?_
    have hadv := h.onward hv.sound hv.onward
    exact (outcome_keep hadv.held hv.lowered).imp
      fun own' s'' ho ↦ ⟨hadv.trans ho.1, fun _ ↦ ho.2⟩
  next hne =>
    refine .pure ⟨h.refl, fun hl ↦ ?_⟩
    cases hk : kept g scopes own s id with
    | some v => rfl
    | none =>
        obtain ⟨e, he⟩ := Graph.contains_iff.1 hl
        exact absurd (Graph.node?_of_entry he) (hne e.node hk)

/-- What lowering a scope starts from.  A live composite may be opened unless it is being expanded;
those that are lead to the root. -/
structure Enters (g : Graph) (output : NodeId) (available : List NodeId) (scopes : List Scope)
    (root : NodeId) (s : State) : Prop where
  sound : Sound g output s
  visited : Visited g s.instrs output scopes root
  spare : ∀ id n, g.node? id = some n → n.isComposite →
    id ∈ available ∨ ∃ scope ∈ scopes, scope.composite = id
  nested : ∀ scope ∈ scopes, TransGen g.Reads scope.composite root

namespace Enters

variable {available : List NodeId} {root : NodeId}

/-- The body of a composite that the root leads to is a scope again. -/
theorem body (h : Enters g output available scopes root s) {body : NodeId}
    {bindings : List (NodeId × Operand)} (hreach : ReflTransGen g.Reads root id)
    (hbody : g.Reads id body) (hs : Sound g output s')
    (hv : Visited g s'.instrs output (⟨id, bindings⟩ :: scopes) body) :
    Enters g output (available.erase id) (⟨id, bindings⟩ :: scopes) body s' where
  sound := hs
  visited := hv
  spare j m hm hc := by
    by_cases hj : j = id
    · exact .inr ⟨_, List.mem_cons_self, hj.symm⟩
    · rcases h.spare j m hm hc with hj' | ⟨scope, hs, heq⟩
      · exact .inl ((List.mem_erase_of_ne hj).2 hj')
      · exact .inr ⟨scope, List.mem_cons_of_mem _ hs, heq⟩
  nested scope hs := by
    rcases List.mem_cons.1 hs with rfl | hs
    · exact .single hbody
    · exact ((h.nested scope hs).trans_left hreach).tail hbody

/-- A composite that may not be opened depends on itself. -/
theorem cycle (h : Enters g output available scopes root s) {n : Node}
    (hreach : ReflTransGen g.Reads root id) (hn : g.node? id = some n) (hc : n.isComposite)
    (hid : id ∉ available) : TransGen g.Reads id id := by
  obtain ⟨scope, hs, rfl⟩ := (h.spare id n hn hc).resolve_left hid
  exact (h.nested scope hs).trans_left hreach

end Enters

/-- Lowering nodes one after another, each of them once what comes before it has been lowered. -/
theorem outcome_lowerAll {opener : Opener} {finished : List NodeId} {err : CompileError → Prop}
    (hnext : ∀ {own : NodeMap Operand} {s' : State} {pre : List NodeId} {id : NodeId}
      {post : List NodeId}, finished = pre ++ id :: post → Held g output scopes own s' →
      Extends s s' →
      (∀ j ∈ pre, g.contains j → (kept g scopes own s' j).isSome) →
      Outcome (lowerNext g opener scopes own id) s' (fun own' s'' ↦
        Advances g output scopes own s' own' s'' ∧
          (g.contains id → (kept g scopes own' s'' id).isSome)) err)
    {done todo : List NodeId} (hsplit : finished = done ++ todo) (hh : Held g output scopes own s')
    (hs : Extends s s') (hdone : ∀ j ∈ done, g.contains j → (kept g scopes own s' j).isSome) :
    Outcome (todo.foldlM (lowerNext g opener scopes) own) s'
      (fun own' s'' ↦ Held g output scopes own' s'' ∧ Extends s s'' ∧
        ∀ j ∈ finished, g.contains j → (kept g scopes own' s'' j).isSome) err := by
  induction todo generalizing done own s' with
  | nil =>
      rw [List.append_nil] at hsplit
      exact .pure ⟨hh, hs, hsplit ▸ hdone⟩
  | cons id todo ih =>
      rw [List.foldlM_cons]
      refine .seq (hnext hsplit hh hs hdone) ?_
      rintro own' s'' ⟨hadv, hkept⟩
      have hsplit' : finished = (done ++ [id]) ++ todo := by rw [hsplit, List.append_assoc]; rfl
      refine ih hsplit' hadv.held (hs.trans hadv.onward) fun j hj hl ↦ ?_
      rcases List.mem_append.1 hj with hj | hj
      · exact hadv.kept j (hdone j hj hl)
      · cases List.mem_singleton.1 hj
        exact hkept hl

/-- How the bodies of composites are lowered, given the composites that may be opened. -/
def opening (g : Graph) (available : List NodeId) : Opener := fun id ↦
  if id ∈ available then some (lowerScope g (available.erase id)) else none

/-- Lower a root and all it reads in the innermost scope, given how the bodies of composites are
lowered. -/
def lowerWith (g : Graph) (opener : Opener) (scopes : List Scope) (root : NodeId) :
    Lower Operand := do
  let own ← (g.walk Node.operands true [root]).finished.foldlM (lowerNext g opener scopes)
    NodeMap.empty
  match (g.walk Node.operands true [root]).cycle with
  | some (c :: _) => throw (.cycle c)
  | _ => operandIn g scopes own root

theorem lowerScope_eq (g : Graph) (available : List NodeId) (scopes : List Scope)
    (root : NodeId) :
    lowerScope g available scopes root = lowerWith g (opening g available) scopes root := by
  rw [lowerScope]
  rfl

namespace Enters

variable {available : List NodeId} {root : NodeId}

/-- The root leads to everything that the walk of a scope enters, through operands. -/
theorem leads (hid : id ∈ (g.walk Node.operands true [root]).entered) :
    ReflTransGen (g.Leads Node.operands) root id := by
  obtain ⟨r, hr, hreach⟩ := (Graph.explores_walk g Node.operands true [root]).reached id hid
  rwa [List.mem_singleton.1 hr] at hreach

/-- One node of the walk, once what comes before it has been lowered, where the bodies of composites
can be lowered. -/
theorem outcome_lowerNext (h : Enters g output available scopes root s)
    (hbody : ∀ {id body bindings s'}, id ∈ available →
      Enters g output (available.erase id) (⟨id, bindings⟩ :: scopes) body s' →
      Outcome (lowerScope g (available.erase id) (⟨id, bindings⟩ :: scopes) body) s'
        (Stands g output (⟨id, bindings⟩ :: scopes) body s') (Blamed g output))
    {pre post : List NodeId}
    (hsplit : (g.walk Node.operands true [root]).finished = pre ++ id :: post)
    (hh : Held g output scopes own s') (hs : Extends s s') (hpre : ∀ j ∈ pre, g.contains j → (kept g scopes own s' j).isSome) :
    Outcome (lowerNext g (opening g available) scopes own id) s'
      (fun own' s'' ↦ Advances g output scopes own s' own' s'' ∧
        (g.contains id → (kept g scopes own' s'' id).isSome)) (Blamed g output) := by
  have hexp := Graph.explores_walk g Node.operands true [root]
  have hleads : ReflTransGen (g.Leads Node.operands) root id :=
    leads (hexp.entered_of_finished id (by rw [hsplit]; simp))
  have hreach : ReflTransGen g.Reads root id :=
    Graph.reaches_of_leads (fun _ _ ↦ Node.mem_edges_of_mem_operands) hleads
  have hv : Visited g s'.instrs output scopes id := (h.visited.mono hs.code).of_leads hleads
  refine Compile.outcome_lowerNext hh hv
    (fun a ha hl ↦ hpre a (Graph.finished_ordered hsplit a ha hl) hl) ?_ ?_
  · intro n lower body bindings hn hlower hjoin hv
    unfold opening at hlower
    split at hlower
    next hmem =>
      cases hlower
      have hread : g.Reads id body := by
        rw [Graph.Reads, Graph.edges_of_node? hn]
        exact Node.mem_edges_of_port? (Option.join_eq_some_iff.1 hjoin)
      exact hbody hmem (h.body hreach hread hh.sound hv)
    · cases hlower
  · intro n hn hc hnone
    unfold opening at hnone
    split at hnone
    · cases hnone
    next hmem => exact h.cycle hreach hn hc hmem

end Enters

/-- Lowering a scope makes an operand that stands for its root, or blames a node at fault. -/
theorem outcome_lowerScope {available : List NodeId} {root : NodeId}
    (h : Enters g output available scopes root s) :
    Outcome (lowerScope g available scopes root) s (Stands g output scopes root s)
      (Blamed g output) := by
  -- every expansion uses up a composite that may be opened
  induction available using erase_induction generalizing scopes root s with
  | step available ih =>
      have hbody {id body : NodeId} {bindings : List (NodeId × Operand)} {s' : State}
          (hmem : id ∈ available)
          (h' : Enters g output (available.erase id) (⟨id, bindings⟩ :: scopes) body s') :
          Outcome (lowerScope g (available.erase id) (⟨id, bindings⟩ :: scopes) body) s'
            (Stands g output (⟨id, bindings⟩ :: scopes) body s') (Blamed g output) := ih id hmem h'
      have hstart : Held g output scopes NodeMap.empty s :=
        ⟨h.sound, h.visited.opened, fun _ _ hv ↦ by cases hv⟩
      have hall := outcome_lowerAll (h.outcome_lowerNext hbody) (List.nil_append _).symm
        hstart (.refl s) fun _ hj ↦ by cases hj
      rw [lowerScope_eq, lowerWith]
      refine .seq hall ?_
      rintro own s' ⟨hh, hs, hkept⟩
      have hexp := Graph.explores_walk g Node.operands true [root]
      cases hc : (g.walk Node.operands true [root]).cycle with
      | some c =>
          obtain ⟨id, rest, rfl, hid, hcycle⟩ := hexp.cycle c hc
          have hv := (h.visited.mono hs.code).of_leads (Enters.leads hid)
          have hreads (a b : NodeId) (h : g.Leads Node.operands a b) : g.Reads a b :=
            Graph.reads_of_leads (fun _ _ ↦ Node.mem_edges_of_mem_operands) h
          exact .throw (hv.blamed (.cycle (TransGen.mono hreads _ _ hcycle)))
      | none =>
          have hroot := hh.resolves fun hl ↦
            hkept root (hexp.finished_of_root hc root List.mem_cons_self hl) hl
          refine (hroot.outcome (h.visited.mono hs.code)).imp ?_
          rintro v s'' ⟨rfl, hl⟩
          exact ⟨hh.sound, hs, hl⟩

/-! ## Whole programs -/

theorem enters_init (g : Graph) (output : NodeId) :
    Enters g output g.composites [] output State.init where
  sound := sound_init g output
  visited := .output
  spare id n hn hc := by
    refine .inl (List.mem_filter.2 ⟨Graph.mem_ids.2 (Graph.contains_of_node? hn), ?_⟩)
    rw [hn]
    exact hc
  nested _ h := by cases h

theorem outcome_compile (g : Graph) (output : NodeId) :
    Outcome (lowerScope g g.composites [] output) State.init (Stands g output [] output State.init)
      (Blamed g output) := outcome_lowerScope (enters_init g output)

/-- What is made of a lowered output, which has to have a given type if one is expected. -/
def conclude (output : NodeId) (expected : Option ValueType) (v : Operand) (s : State) :
    Except CompileError Program :=
  match expected with
  | some t =>
    if .of v.shape ≠ t then .error (.typeMismatch output t v.shape)
    else .ok ⟨s.instrs, v.reg, v.shape, s.params⟩
  | none => .ok ⟨s.instrs, v.reg, v.shape, s.params⟩

/-- Compile an output, given how it is lowered. -/
def compileBy (g : Graph) (lower : NodeId → Lower Operand) (output : NodeId)
    (expected : Option ValueType) : Except CompileError Program :=
  match g.node? output with
  | none => .error (.unknownNode output)
  | some (.output _) =>
    (lower output State.init).bind fun r ↦ conclude output expected r.1 r.2
  | some _ => .error (.notAnOutput output)

theorem compile_eq (g : Graph) (output : NodeId) (expected : Option ValueType) :
    g.compile output expected =
      compileBy g (lowerScope g g.composites []) output expected := by
  unfold Graph.compile compileBy conclude
  cases g.node? output with
  | none => rfl
  | some n =>
      cases n with
      | output source =>
          cases hrun : lowerScope g g.composites [] output State.init with
          | error e =>
              simp only [StateT.run, hrun]
              rfl
          | ok r =>
              simp only [StateT.run, hrun, bind, Except.bind]
              cases expected with
              | none => rfl
              | some t => by_cases ht : ValueType.of r.1.shape = t <;> simp only [ht] <;> rfl
      | _ => rfl

theorem eq_of_conclude {output : NodeId} {expected : Option ValueType} {v : Operand} {p : Program}
    (h : conclude output expected v s = .ok p) : p = ⟨s.instrs, v.reg, v.shape, s.params⟩ := by
  cases expected with
  | none => exact (Except.ok.inj h).symm
  | some t =>
      unfold conclude at h
      simp only at h
      split at h
      · cases h
      · exact (Except.ok.inj h).symm

/-- A program is the code that lowering its output leaves, and the register that stands for it. -/
theorem exists_lowered_of_compile {output : NodeId} {expected : Option ValueType} {p : Program}
    (h : g.compile output expected = .ok p) :
    ∃ s v source, g.node? output = some (.output source) ∧ Sound g output s ∧
      Lowered g s.instrs [] output v ∧ p = ⟨s.instrs, v.reg, v.shape, s.params⟩ := by
  rw [compile_eq, compileBy] at h
  split at h
  · cases h
  next source hn =>
    cases hrun : lowerScope g g.composites [] output State.init with
    | error e =>
        rw [hrun] at h
        cases h
    | ok r =>
        rw [hrun] at h
        have hs := (outcome_compile g output).ok r.1 r.2 hrun
        exact ⟨r.2, r.1, source, hn, hs.sound, hs.lowered, eq_of_conclude h⟩
  · cases h

/-- Compiling an output fails only because of a fault of a node that the output leads to, or because
the output does not have the type that is expected. -/
theorem blamed_of_compile_expecting {output : NodeId} {source : Edge} {e : CompileError}
    {expected : Option ValueType} (hn : g.node? output = some (.output source))
    (h : g.compile output expected = .error e) :
    Blamed g output e ∨
      ∃ t shape, expected = some t ∧ e = .typeMismatch output t shape := by
  rw [compile_eq, compileBy, hn] at h
  simp only at h
  cases hrun : lowerScope g g.composites [] output State.init with
  | error e' =>
      rw [hrun] at h
      cases h
      exact .inl ((outcome_compile g output).err e hrun)
  | ok r =>
      rw [hrun] at h
      right
      cases expected with
      | none => cases h
      | some t =>
          simp only [Except.bind, conclude] at h
          split at h
          · exact ⟨t, r.1.shape, rfl, (Except.error.inj h).symm⟩
          · cases h

/-- Where no type is expected, compiling fails only because of a fault of a node that the output
leads to. -/
theorem blamed_of_compile {output : NodeId} {source : Edge} {e : CompileError}
    (hn : g.node? output = some (.output source)) (h : g.compile output none = .error e) :
    ReflTransGen g.Reads output e.node ∧
      ∃ code scopes, Opened g code scopes ∧ Fault g code output scopes e := by
  rcases blamed_of_compile_expecting hn h with ⟨code, scopes, hv, hf⟩ | ⟨t, shape, ht, -⟩
  · exact ⟨hv.reaches, code, scopes, hv.opened, hf⟩
  · cases ht

end FieldGraph.Compile
