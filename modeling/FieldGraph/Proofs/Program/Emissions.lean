import FieldGraph.Proofs.Program.Signature

/-!
# What is emitted for a node

A node that is lowered appends the instructions that it takes and names itself as their source: one
for most nodes, one more for an operator that takes a scalar and a vector component by component,
none for an output, and one for a parameter unless its position has been loaded or an argument
stands for it.  Operands are looked up, which emits nothing.
-/

namespace FieldGraph.Compile

variable {g : Graph} {scopes : List Scope} {id : NodeId} {n : Node} {s s' : State}
  {operand : NodeId → Lower Operand}

/-! ## How many instructions -/

/-- An operator that works component by component is given a scalar and a vector. -/
def Mixes (op : BinaryOp) (s t : Shape) : Prop := op.isComponentwise ∧ (s = .float ↔ t ≠ .float)

instance (op : BinaryOp) (s t : Shape) : Decidable (Mixes op s t) :=
  inferInstanceAs (Decidable (_ ∧ _))

/-- The shape of a node, whatever the parameters are to be. -/
abbrev Shaped (g : Graph) (env : Graph.Env Shape) (id : NodeId) (s : Shape) : Prop :=
  g.Denotes (Graph.shapes fun _ _ ↦ True) env id s

/-- The number of instructions that are emitted for a node, where placeholders stand for values of
given shapes. -/
inductive Takes (g : Graph) (env : Graph.Env Shape) : Node → Nat → Prop
  | constant {v : Value} : Takes g env (.constant v) 1
  | unary {op : UnaryOp} {e : Edge} : Takes g env (.unary op e) 1
  | binary {op : BinaryOp} {a b : NodeId} {s t : Shape} (ha : Shaped g env a s)
      (hb : Shaped g env b t) :
      Takes g env (.binary op (some a) (some b)) (if Mixes op s t then 2 else 1)
  | construct {slots : List Edge} : Takes g env (.construct slots) 1
  | parameter {index : Nat} {t : ValueType} {count : Nat} (hle : count ≤ 1) :
      Takes g env (.parameter index t) count
  | output {e : Edge} : Takes g env (.output e) 0
  | composite {n : Node} (hc : n.isComposite) : Takes g env n 0

theorem mixes_iff {op : BinaryOp} {s t shape : Shape} (h : op.shapeOf s t = .of shape) :
    Mixes op s t ↔ op.isComponentwise ∧ s ≠ t := by
  refine and_congr_right fun hc ↦ ?_
  by_cases hs : s = .float
  · subst hs
    exact ⟨fun h ht ↦ h.1 rfl ht.symm, fun h ↦ ⟨fun _ ht ↦ h ht.symm, fun _ ↦ rfl⟩⟩
  · by_cases ht : t = .float
    · exact ⟨fun _ heq ↦ hs (heq.trans ht), fun _ ↦ ⟨fun h ↦ absurd h hs, fun h ↦ absurd ht h⟩⟩
    · refine ⟨fun h ↦ absurd (h.2 ht) hs, fun hne ↦ ?_⟩
      exact absurd (BinaryOp.eq_float_of_shapeOf hc h hs hne) ht

/-! ## One node -/

/-- A parameter that has been loaded can be found, and none has been loaded twice. -/
structure Loaded (s : State) : Prop where
  found : ∀ i ∈ s.instrs, ∀ index, i.operation = .param index → (s.loads.lookup index).isSome
  once : ∀ index, s.instrs.countP (fun i ↦ i.operation = .param index) ≤ 1

/-- The instructions of a node name it as their source, and are as many as it takes.  Those of a
parameter load its position. -/
structure Emits (g : Graph) (scopes : List Scope) (id : NodeId) (n : Node)
    (emitted : List Instr) : Prop where
  source_eq : ∀ i ∈ emitted, i.source = id
  takes : Takes g (shapesIn scopes) n emitted.length
  load : ∀ index t, n = .parameter index t → ∀ i ∈ emitted, i.operation = .param index

/-- What lowering a node does to the state. -/
structure Issues (g : Graph) (scopes : List Scope) (id : NodeId) (n : Node) (s s' : State) :
    Prop where
  code : ∃ emitted, s'.instrs = s.instrs ++ emitted ∧ Emits g scopes id n emitted
  shared_eq : s'.shared = s.shared
  params : ∀ index shape, s'.params[index]?.join = some shape →
    s.params[index]?.join = some shape ∨
      (n = .parameter index (.of shape) ∧ bound? scopes id = none)
  loaded : Loaded s → Loaded s'

theorem emits_none (h : Takes g (shapesIn scopes) n 0) : Emits g scopes id n [] :=
  ⟨fun _ hi ↦ (by cases hi), h, fun _ _ _ _ hi ↦ (by cases hi)⟩

/-- A conflict of parameters is one with what has been declared before. -/
def Conflicts (s : State) (e : CompileError) : Prop :=
  ∀ id index expected found, e = .parameterConflict id index expected found →
    s.params[index]?.join = some expected

theorem Loaded.append (h : Loaded s) {more : List Instr}
    (hmore : ∀ i ∈ more, ∀ index, i.operation ≠ .param index) (hcode : s'.instrs = s.instrs ++ more)
    (hloads : s'.loads = s.loads) : Loaded s' := by
  refine ⟨fun i hi index hop ↦ ?_, fun index ↦ ?_⟩
  · rw [hcode, List.mem_append] at hi
    rw [hloads]
    rcases hi with hi | hi
    · exact h.found i hi index hop
    · exact absurd hop (hmore i hi index)
  · have hnone : more.countP (fun i ↦ i.operation = .param index) = 0 :=
      List.countP_eq_zero.2 fun i hi ↦ by simpa using hmore i hi index
    rw [hcode, List.countP_append, hnone]
    exact h.once index

/-- Appending instructions that load no parameter. -/
theorem issues_append {more : List Instr} (hn : n.isParameter = false)
    (hmore : ∀ i ∈ more, i.source = id) (hparam : ∀ i ∈ more, ∀ index, i.operation ≠ .param index)
    (htakes : Takes g (shapesIn scopes) n more.length) (hcode : s'.instrs = s.instrs ++ more)
    (hrest : s' = { s with code := s'.code }) : Issues g scopes id n s s' where
  code := ⟨more, hcode, hmore, htakes, by rintro index t rfl; cases hn⟩
  shared_eq := by rw [hrest]
  params index shape h := .inl (by rwa [hrest] at h)
  loaded h := h.append hparam hcode (by rw [hrest])

/-- Emitting the instruction of a node after those that prepare it. -/
theorem issues_emit_after {s₁ : State} {more : List Instr} {operation : Operation} {shape : Shape}
    (hn : n.isParameter = false) (hcode : s₁.instrs = s.instrs ++ more)
    (hrest : s₁ = { s with code := s₁.code })
    (hmore : ∀ i ∈ more, Prepares id shape i) (hparam : ∀ index, operation ≠ .param index)
    (htakes : Takes g (shapesIn scopes) n (more.length + 1)) {err : CompileError → Prop} :
    Outcome (emit operation shape id) s₁ (fun _ ↦ Issues g scopes id n s) err := by
  refine ⟨fun v s' heq ↦ ?_, fun e heq ↦ by cases heq⟩
  cases heq
  have hmem {i : Instr} (hi : i ∈ more ++ [⟨operation, shape, id⟩]) :
      Prepares id shape i ∨ i = ⟨operation, shape, id⟩ :=
    (List.mem_append.1 hi).imp (hmore i) List.mem_singleton.1
  have hlength : (more ++ [(⟨operation, shape, id⟩ : Instr)]).length = more.length + 1 :=
    List.length_append
  refine issues_append hn (fun i hi ↦ ?_) (fun i hi ↦ ?_) (hlength ▸ htakes) ?_ (by rw [hrest])
  · rcases hmem hi with hi | rfl
    · exact hi.source_eq
    · rfl
  · rcases hmem hi with hi | rfl
    · exact hi.not_param
    · exact hparam
  · rw [instrs_push, hcode, List.append_assoc]

/-- Emitting the one instruction that a node takes. -/
theorem issues_emit {operation : Operation} {shape : Shape} (hn : n.isParameter = false)
    (hparam : ∀ index, operation ≠ .param index) (htakes : Takes g (shapesIn scopes) n 1)
    {err : CompileError → Prop} :
    Outcome (emit operation shape id) s (fun _ ↦ Issues g scopes id n s) err :=
  issues_emit_after hn (List.append_nil _).symm rfl (fun _ h ↦ by cases h) hparam htakes

theorem Resolves.reads {a : NodeId} (h : Resolves g scopes s operand a) :
    Outcome (operand a) s (fun v s' ↦ s' = s ∧ Lowered g s.instrs scopes a v) (Conflicts s) :=
  h.mono (fun _ _ hl ↦ hl) fun e he ↦ by
    rw [he.1]
    rintro _ _ _ _ ⟨⟩

theorem reads_wired (id : NodeId) (port : Port) {e : Edge}
    (hop : ∀ a ∈ e, Resolves g scopes s operand a) :
    Outcome (wired id operand port e) s
      (fun v s' ↦ s' = s ∧ ∃ a, e = some a ∧ Lowered g s.instrs scopes a v) (Conflicts s) := by
  cases e with
  | none => exact .throw (by rintro _ _ _ _ ⟨⟩)
  | some a => exact (hop a rfl).reads.imp fun v s' hl ↦ ⟨hl.1, a, rfl, hl.2⟩

theorem reads_lowerSlots (slot : Nat) {slots : List Edge}
    (hop : ∀ a, some a ∈ slots → Resolves g scopes s operand a) :
    Outcome (lowerSlots id operand slot slots) s (fun _ s' ↦ s' = s) (Conflicts s) := by
  induction slots generalizing slot with
  | nil => exact .pure rfl
  | cons e slots ih =>
      cases e with
      | none => exact .throw (by rintro _ _ _ _ ⟨⟩)
      | some a =>
          unfold lowerSlots
          refine .seq (hop a List.mem_cons_self).reads ?_
          rintro v s' ⟨rfl, -⟩
          simp only
          split
          · exact .bind (.throw (by rintro _ _ _ _ ⟨⟩))
          · refine .seq (ih _ fun b hb ↦ hop b (List.mem_cons_of_mem _ hb)) ?_
            rintro rs s'' rfl
            exact .pure rfl

theorem reads_bindArguments (id : NodeId) (index : Nat) {arguments : List (NodeId × Edge)}
    (hop : ∀ p a, (p, some a) ∈ arguments → Resolves g scopes s operand a) :
    Outcome (bindArguments id operand index arguments) s (fun _ s' ↦ s' = s) (Conflicts s) := by
  induction arguments generalizing index with
  | nil => exact .pure rfl
  | cons b arguments ih =>
      obtain ⟨p, e⟩ := b
      cases e with
      | none => exact .throw (by rintro _ _ _ _ ⟨⟩)
      | some a =>
          unfold bindArguments
          refine .seq (hop p a List.mem_cons_self).reads ?_
          rintro v s' ⟨rfl, -⟩
          refine .seq (ih _ fun q b hb ↦ hop q b (List.mem_cons_of_mem _ hb)) ?_
          rintro bindings s'' rfl
          exact .pure rfl

theorem Lowered.shaped {v : Operand} {code : List Instr} (h : Lowered g code scopes id v) :
    Shaped g (shapesIn scopes) id v.shape := h.denotes fun _ _ _ _ ↦ trivial

theorem issues_unary {op : UnaryOp} {e : Edge} (x : Operand) :
    Outcome (lowerUnary id op x) s (fun _ ↦ Issues g scopes id (.unary op e) s) (Conflicts s) := by
  unfold lowerUnary
  split
  · exact issues_emit rfl (fun _ h ↦ by cases h) .unary
  · exact .throw (by rintro _ _ _ _ ⟨⟩)

/-- A scalar is repeated exactly if it is to match a vector. -/
theorem issues_widen {op : BinaryOp} {shape : Shape} {x y : Operand}
    (hshape : op.shapeOf x.shape y.shape = .of shape) {err : CompileError → Prop} :
    Outcome (widen id op shape x y) s (fun _ s₁ ↦ ∃ more, s₁.instrs = s.instrs ++ more ∧
      s₁ = { s with code := s₁.code } ∧ (∀ i ∈ more, Prepares id shape i) ∧
        more.length + 1 = if Mixes op x.shape y.shape then 2 else 1) err := by
  unfold widen
  split
  next hc =>
    rw [if_pos ((mixes_iff hshape).2 hc)]
    split <;>
      exact outcome_emit_bind (.pure ⟨_, instrs_push .., rfl, prepares_splat _ _ _, rfl⟩)
  next hc =>
    rw [if_neg (mt (mixes_iff hshape).1 hc)]
    exact .pure ⟨[], (List.append_nil _).symm, rfl, fun _ h ↦ (by cases h), rfl⟩

theorem issues_binary {op : BinaryOp} {a b : NodeId} {x y : Operand}
    (ha : Shaped g (shapesIn scopes) a x.shape) (hb : Shaped g (shapesIn scopes) b y.shape) :
    Outcome (lowerBinary id op x y) s
      (fun _ ↦ Issues g scopes id (.binary op (some a) (some b)) s) (Conflicts s) := by
  unfold lowerBinary
  split
  next shape hshape =>
    refine .seq (issues_widen hshape) ?_
    rintro r s₁ ⟨more, hcode, hrest, hmore, hlength⟩
    exact issues_emit_after rfl hcode hrest hmore (fun _ h ↦ by cases h) (hlength ▸ .binary ha hb)
  next => exact .throw (by rintro _ _ _ _ ⟨⟩)

/-- Loading a position that has not been loaded. -/
theorem Loaded.load (h : Loaded s) {index : Nat} {shape : Shape} {v : Operand}
    (hnone : s.loads.lookup index = none)
    (hcode : s'.instrs = s.instrs ++ [⟨.param index, shape, id⟩])
    (hloads : s'.loads = (index, v) :: s.loads) : Loaded s' := by
  refine ⟨fun i hi k hop ↦ ?_, fun k ↦ ?_⟩
  · rw [hloads, List.lookup_cons]
    rw [hcode, List.mem_append] at hi
    split
    · rfl
    next hne =>
      rcases hi with hi | hi
      · exact h.found i hi k hop
      · rw [List.mem_singleton.1 hi] at hop
        simp [Operation.param.inj hop] at hne
  · rw [hcode, List.countP_append, List.countP_singleton]
    by_cases hk : index = k
    · subst hk
      have hzero : s.instrs.countP (fun i ↦ i.operation = .param index) = 0 := by
        refine List.countP_eq_zero.2 fun i hi hop ↦ ?_
        have := h.found i hi index (by simpa using hop)
        rw [hnone] at this
        cases this
      rw [hzero]
      simp
    · have := h.once k
      simp [hk, this]

/-- A parameter is loaded unless its position has been. -/
theorem issues_load (params : List (Option Shape)) {index : Nat} {shape : Shape} {t : ValueType}
    (hparams : ∀ k sh, params[k]?.join = some sh → s.params[k]?.join = some sh ∨
      (Node.parameter index t = .parameter k (.of sh) ∧ bound? scopes id = none))
    {err : CompileError → Prop} :
    Outcome (match s.loads.lookup index with
      | some v => return v
      | none => do
        let v ← emit (.param index) shape id
        modify fun s => { s with loads := (index, v) :: s.loads }
        return v) { s with params := params }
      (fun _ ↦ Issues g scopes id (.parameter index t) s) err := by
  split
  next v hv =>
    exact .pure ⟨⟨[], (List.append_nil _).symm, emits_none (.parameter (Nat.zero_le _))⟩, rfl,
      hparams, fun h ↦ ⟨h.found, h.once⟩⟩
  next hnone =>
    refine outcome_emit_bind (.bind (.modify (.pure ?_)))
    have hpush := instrs_push s ⟨.param index, shape, id⟩
    refine ⟨⟨[⟨.param index, shape, id⟩], hpush, fun i hi ↦ ?_, .parameter (Nat.le_refl 1), ?_⟩,
      rfl, hparams, fun h ↦ h.load hnone hpush rfl⟩
    · rw [List.mem_singleton.1 hi]
    · rintro index t ⟨⟩ i hi
      rw [List.mem_singleton.1 hi]

theorem issues_parameter (index : Nat) (t : ValueType) :
    Outcome (lowerParameter scopes id index t) s
      (fun _ ↦ Issues g scopes id (.parameter index t) s) (Conflicts s) := by
  unfold lowerParameter
  split
  next v hb =>
    exact .pure ⟨⟨[], (List.append_nil _).symm, emits_none (.parameter (Nat.zero_le _))⟩, rfl,
      fun _ _ h ↦ .inl h, fun h ↦ h⟩
  next hb =>
    split
    next shape =>
      refine .bind (.get ?_)
      cases hp : s.params[index]?.join with
      | some expected =>
          simp only
          by_cases heq : expected = shape
          · rw [if_neg (not_not_intro heq)]
            exact issues_load s.params fun _ _ h ↦ .inl h
          · rw [if_pos heq]
            refine .bind (.throw ?_)
            rintro _ _ _ _ ⟨⟩
            exact hp
      | none =>
          refine .bind (.set (issues_load (declareParam s.params index shape) fun k sh h ↦ ?_))
          rw [declareParam_lookup] at h
          split at h
          next heq =>
            cases h
            exact .inr ⟨heq ▸ rfl, hb⟩
          next => exact .inl h
    next => exact .throw (by rintro _ _ _ _ ⟨⟩)

/-- What lowering a node that is no composite does to the state. -/
theorem issues_lowerNode (hc : n.isComposite = false)
    (hop : ∀ a ∈ n.operands, Resolves g scopes s operand a) (expand : NodeId → Lower Operand) :
    Outcome (lowerNode scopes operand expand id n) s (fun _ ↦ Issues g scopes id n s)
      (Conflicts s) := by
  have input (port : Port) {e : Edge} (hp : n.port? port = some e) :=
    reads_wired id port fun a (ha : a ∈ e) ↦
      have hmem : a ∈ n.edges := Node.mem_edges_of_port? (hp.trans (congrArg some ha))
      hop a (Node.operands_of_not_composite hc ▸ hmem)
  cases n with
  | constant c => exact issues_emit rfl (fun _ h ↦ by cases h) .constant
  | parameter index t => exact issues_parameter index t
  | output e =>
      refine (input .input rfl).imp ?_
      rintro v s' ⟨rfl, -⟩
      exact ⟨⟨[], (List.append_nil _).symm, emits_none .output⟩, rfl, fun _ _ h ↦ .inl h, fun h ↦ h⟩
  | unary op e =>
      refine .seq (input .input rfl) ?_
      rintro x s' ⟨rfl, -⟩
      exact issues_unary x
  | binary op l r =>
      refine .seq (input .lhs rfl) ?_
      rintro x s' ⟨rfl, a, rfl, ha⟩
      refine .seq (input .rhs rfl) ?_
      rintro y s' ⟨rfl, b, rfl, hb⟩
      exact issues_binary ha.shaped hb.shaped
  | construct slots =>
      refine .seq (reads_lowerSlots 0 fun a ha ↦ hop a (List.mem_filterMap.2 ⟨some a, ha, rfl⟩)) ?_
      rintro rs s' rfl
      split
      · exact issues_emit rfl (fun _ h ↦ by cases h) .construct
      · exact .throw (by rintro _ _ _ _ ⟨⟩)
  | compositeUnary | compositeBinary => cases hc

end FieldGraph.Compile
