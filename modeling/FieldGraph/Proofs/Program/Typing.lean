import FieldGraph.Proofs.Graph.Consistency
import FieldGraph.Proofs.Program.Expansion

/-!
# The types of compiled nodes

The compiler finds the shape of a node on its own, from the shapes of the operands it has lowered.
On a graph with consistent types, whose placeholders have the types of the arguments they stand for,
it finds the type of the node.  Conversely, where the graph gives an output a shape there is little
left for the compiler to complain about.
-/

namespace FieldGraph

open Relation

theorem ValueType.isConcrete_iff {t : ValueType} : t.isConcrete ↔ ∃ s, t = .of s := by
  cases t <;> simp [isConcrete, shape?]

namespace Graph

variable {g : Graph} {id : NodeId}

/-- The placeholders of every composite have the types of its arguments. -/
def Mirrored (g : Graph) : Prop :=
  ∀ id n, g.node? id = some n → ∀ a ∈ n.arguments, ∀ t, g.type? a.1 = some t → t = g.edgeType a.2

theorem Consistent.type?_eq (hc : g.Consistent) {n : Node} (hn : g.node? id = some n) :
    g.type? id = some (g.infer n) := by
  obtain ⟨e, he, rfl⟩ := node?_eq_some_iff.1 hn
  rw [type?_of_entry he, hc id e he]

theorem edgeType_some_eq_of_iff {s : Shape} :
    g.edgeType (some id) = .of s ↔ g.type? id = some (.of s) := by
  cases h : g.type? id <;> simp [edgeType, h]

/-- A composite has the shape of its body. -/
theorem infer_eq_of_iff_of_body {n : Node} {body : Edge} (hb : n.body? = some body) {s : Shape} :
    g.infer n = .of s ↔ g.edgeType body = .of s := by
  cases n with
  | compositeUnary | compositeBinary =>
      cases hb
      simp only [infer]
      cases h : g.edgeType body <;> simp
  | _ => cases hb

/-! ## Settled nodes -/

/-- The type of a node is a shape. -/
def HasShape (g : Graph) (id : NodeId) : Prop := ∃ s, g.type? id = some (.of s)

/-- The arguments of a node have shapes. -/
def ArgumentsHaveShapes (g : Graph) (n : Node) : Prop :=
  ∀ a ∈ n.arguments, ∃ s, g.edgeType a.2 = .of s

/-- Every port of a node with a shape is wired to a node with a shape, provided that the arguments
of a composite are. -/
theorem edgeType_of_port? {n : Node} {s : Shape} (hs : g.infer n = .of s)
    (ha : g.ArgumentsHaveShapes n) {port : Port} {e : Edge} (hp : n.port? port = some e) :
    ∃ t, g.edgeType e = .of t := by
  have body {e : Edge} (hb : n.body? = some e) : ∃ t, g.edgeType e = .of t :=
    ⟨s, (infer_eq_of_iff_of_body hb).1 hs⟩
  cases n with
  | constant | parameter => cases port <;> cases hp
  | unary op e =>
      obtain ⟨t, ht, -⟩ := UnaryOp.resultType_eq_of_iff.1 hs
      cases port <;> cases hp
      exact ⟨t, ht⟩
  | binary op l r =>
      obtain ⟨t, u, ht, hu, -⟩ := BinaryOp.resultType_eq_of_iff.1 hs
      cases port <;> cases hp
      · exact ⟨t, ht⟩
      · exact ⟨u, hu⟩
  | construct slots =>
      obtain ⟨-, -, hfloat⟩ := constructType_eq_of_iff.1 hs
      cases port with
      | slot i =>
          exact ⟨.float, hfloat _ (List.mem_map.2 ⟨e, List.mem_of_getElem? hp, rfl⟩)⟩
      | _ => cases hp
  | output e =>
      cases port <;> cases hp
      exact ⟨s, hs⟩
  | compositeUnary a b p =>
      cases port <;> cases hp
      · exact ha _ List.mem_cons_self
      · exact body rfl
  | compositeBinary l r b p q =>
      cases port <;> cases hp
      · exact ha _ List.mem_cons_self
      · exact ha _ (List.mem_cons_of_mem _ List.mem_cons_self)
      · exact body rfl

/-- Everything that a node with a shape leads to has a shape, provided that the arguments of the
composites on the way have. -/
theorem HasShape.of_reaches (hc : g.Consistent) {root : NodeId} (h : g.HasShape root)
    (ha : ∀ id n, ReflTransGen g.Reads root id → g.node? id = some n → g.ArgumentsHaveShapes n)
    (hr : ReflTransGen g.Reads root id) : g.HasShape id := by
  induction hr with
  | refl => exact h
  | @tail b c hb hread ih =>
      obtain ⟨s, hs⟩ := ih
      obtain ⟨n, hn, hmem⟩ := exists_node_of_mem_edges hread
      obtain ⟨port, hp⟩ := Node.exists_port?_of_mem_edges hmem
      have hinfer : g.infer n = .of s := Option.some.inj ((hc.type?_eq hn).symm.trans hs)
      obtain ⟨t, ht⟩ := edgeType_of_port? hinfer (ha b n hb hn) hp
      exact ⟨t, edgeType_some_eq_of_iff.1 ht⟩

end Graph

namespace Compile

variable {g : Graph} {code : List Instr} {scopes : List Scope} {id : NodeId} {v : Operand}

/-! ## Lowered nodes -/

/-- The scopes bind placeholders to operands of their types. -/
def Agrees (g : Graph) (scopes : List Scope) : Prop :=
  ∀ p w, bound? scopes p = some w → ∀ t, g.type? p = some t → t = .of w.shape

theorem agrees_nil : Agrees g [] := fun _ _ h ↦ by cases h

theorem Agrees.cons (h : Agrees g scopes) (hm : g.Mirrored) {n : Node} {bindings : List Binding}
    (hn : g.node? id = some n) (hargs : n.arguments = bindings.map Binding.argument)
    (ha : ∀ b ∈ bindings, g.type? b.source = some (.of b.value.shape)) :
    Agrees g (⟨id, bindings.map Binding.bound⟩ :: scopes) := by
  intro p w
  refine bound?_cons_induction (motive := fun p w ↦ ∀ t, g.type? p = some t → t = .of w.shape)
    (fun b hmem t ht ↦ ?_) h
  have harg : b.argument ∈ n.arguments := hargs ▸ List.mem_map.2 ⟨b, hmem, rfl⟩
  rw [hm id n hn b.argument harg t ht]
  exact Graph.edgeType_some_eq_of_iff.2 (ha b hmem)

/-- An operand that stands for a node has its type. -/
theorem Lowered.type?_eq (h : Lowered g code scopes id v) (hw : g.WellFormed) (hc : g.Consistent)
    (hm : g.Mirrored) (hs : Agrees g scopes) : g.type? id = some (.of v.shape) := by
  induction h with
  | constant hn hshape =>
      rw [hc.type?_eq hn, hshape]
      rfl
  | bound hn hb =>
      rw [hc.type?_eq hn, hs _ _ hb _ (hc.type?_eq hn)]
  | load hn => exact hc.type?_eq hn
  | output hn _ ih =>
      rw [hc.type?_eq hn]
      exact congrArg some (Graph.edgeType_some_eq_of_iff.2 (ih hs))
  | unary hn _ hshape _ ih =>
      rw [hc.type?_eq hn]
      exact congrArg some
        (UnaryOp.resultType_eq_of_iff.2 ⟨_, Graph.edgeType_some_eq_of_iff.2 (ih hs), hshape⟩)
  | binary hn _ _ hshape _ _ _ ihx ihy =>
      rw [hc.type?_eq hn]
      exact congrArg some (BinaryOp.resultType_eq_of_iff.2 ⟨_, _, Graph.edgeType_some_eq_of_iff.2 (ihx hs),
        Graph.edgeType_some_eq_of_iff.2 (ihy hs), hshape⟩)
  | @construct scopes id slots v hn _ hdim _ ih =>
      rw [hc.type?_eq hn]
      obtain ⟨e, he, hnode⟩ := Graph.node?_eq_some_iff.1 hn
      have harity := hw.arity he
      rw [hnode] at harity
      refine congrArg some (constructType_eq_of_iff.2 ⟨?_, ?_, fun t ht ↦ ?_⟩)
      · simpa using harity.1
      · simpa using hdim
      · obtain ⟨e, he, rfl⟩ := List.mem_map.1 ht
        obtain ⟨b, hb, rfl⟩ := List.mem_map.1 he
        exact Graph.edgeType_some_eq_of_iff.2 (ih b hb hs)
  | composite hn hbody hargs _ _ iha ihv =>
      have hs' := hs.cons hm hn hargs fun b hb ↦ iha b hb hs
      rw [hc.type?_eq hn]
      exact congrArg some ((Graph.infer_eq_of_iff_of_body (Option.join_eq_some_iff.1 hbody)).2
        (Graph.edgeType_some_eq_of_iff.2 (ihv hs')))

theorem Opened.agrees (h : Opened g code scopes) (hw : g.WellFormed) (hc : g.Consistent)
    (hm : g.Mirrored) : Agrees g scopes := by
  induction h with
  | nil => exact agrees_nil
  | cons _ hn hargs ha ih => exact ih.cons hm hn hargs fun b hb ↦ (ha b hb).type?_eq hw hc hm ih

/-! ## Faults -/

/-- A node of a shape has no fault, other than that it may declare another shape than an earlier
parameter of its position. -/
theorem Fault.parameterConflict_of_hasShape {output : NodeId} {e : CompileError}
    (h : Fault g code output scopes e)
    (hw : g.WellFormed) (hc : g.Consistent) (hm : g.Mirrored) (hacyclic : g.Acyclic)
    (ho : Opened g code scopes) (hs : g.HasShape e.node)
    (ha : ∀ n, g.node? e.node = some n → g.ArgumentsHaveShapes n) :
    ∃ id index expected found, e = .parameterConflict id index expected found := by
  obtain ⟨s, hs⟩ := hs
  have shape {a : NodeId} {x : Operand} (hl : Lowered g code scopes a x) :
      g.edgeType (some a) = .of x.shape :=
    Graph.edgeType_some_eq_of_iff.2 (hl.type?_eq hw hc hm (ho.agrees hw hc hm))
  have infer {n : Node} (hn : g.node? e.node = some n) : g.infer n = .of s :=
    Option.some.inj ((hc.type?_eq hn).symm.trans hs)
  have wired {n : Node} {port : Port} (hn : g.node? e.node = some n)
      (hp : n.port? port = some none) : False := by
    obtain ⟨t, ht⟩ := Graph.edgeType_of_port? (infer hn) (ha n hn) hp
    cases ht
  cases h with
  | unknownNode hn =>
      obtain ⟨d, hd, -⟩ := Graph.type?_eq_some_iff.1 hs
      cases hn.symm.trans (Graph.node?_of_entry hd)
  | missingInput hn _ hp => exact (wired hn hp).elim
  | @missingSlot id slots slot hn hslot =>
      have hp : (Node.construct slots).port? (.slot slot) = some none := hslot
      exact (wired hn hp).elim
  | @missingBody id n hn hcomp hb =>
      obtain ⟨body, hbody⟩ := Node.exists_body?_of_isComposite hcomp
      rw [hbody] at hb
      cases hb
      exact (wired hn hbody).elim
  | @missingArgument id p n index hn harg =>
      obtain ⟨t, ht⟩ := ha n hn (p, none) (List.mem_of_getElem? harg)
      cases ht
  | unsupportedUnary hn hl hne =>
      obtain ⟨t, ht, hok⟩ := UnaryOp.resultType_eq_of_iff.1 (infer hn)
      rw [shape hl] at ht
      cases ht
      exact absurd hok (hne s)
  | unsupportedBinary hn hx hy hne =>
      obtain ⟨t, u, ht, hu, hok⟩ := BinaryOp.resultType_eq_of_iff.1 (infer hn)
      rw [shape hx] at ht
      rw [shape hy] at hu
      cases ht
      cases hu
      exact absurd hok (hne s)
  | @unsupportedSlot id a slots slot x hn hslot hl hne =>
      obtain ⟨-, -, hfloat⟩ := constructType_eq_of_iff.1 (infer hn)
      have hx := hfloat _ (List.mem_map.2 ⟨some a, List.mem_of_getElem? hslot, rfl⟩)
      rw [shape hl] at hx
      exact absurd (ValueType.of.inj hx) hne
  | unsupportedArity hn hdim =>
      obtain ⟨-, hok, -⟩ := constructType_eq_of_iff.1 (infer hn)
      rw [List.length_map, hdim] at hok
      cases hok
  | unresolved hn _ hne => exact absurd (infer hn) (hne s)
  | parameterConflict => exact ⟨_, _, _, _, rfl⟩
  | cycle hcyc => exact absurd hcyc (hacyclic _)

end Compile

/-! ## Whole programs -/

namespace Graph

/-- The types of a graph and the shapes of its programs agree.  A program that is compiled from an
output has the type of the output for its result, and each instruction has the type of its node; so
an output without a shape is not compiled.  An output with a shape is compiled, if the arguments of
all composites it leads to have shapes, unless two parameters of one position have different
shapes. -/
theorem compile_typed {g : Graph} (hw : g.WellFormed) (hacyclic : g.Acyclic) (hc : g.Consistent)
    (hm : g.Mirrored) {output : NodeId} {source : Edge}
    (hn : g.node? output = some (.output source)) :
    (∀ p, g.compile output none = .ok p → g.type? output = some (.of p.result) ∧
      ∀ i ∈ p.instrs, g.type? i.source = some (.of i.shape)) ∧
    (¬ g.HasShape output → ∃ e, g.compile output none = .error e) ∧
    (g.HasShape output → (∀ id n, ReflTransGen g.Reads output id → g.node? id = some n →
        g.ArgumentsHaveShapes n) →
      ∀ e, g.compile output none = .error e →
        ∃ id index expected found, e = .parameterConflict id index expected found) := by
  have typed {p : Program} (h : g.compile output none = .ok p) :
      g.type? output = some (.of p.result) ∧
        ∀ i ∈ p.instrs, g.type? i.source = some (.of i.shape) := by
    obtain ⟨s, v, -, -, hs, hl, rfl⟩ := Compile.exists_lowered_of_compile h
    refine ⟨hl.type?_eq hw hc hm Compile.agrees_nil, fun i hi ↦ ?_⟩
    obtain ⟨scopes, w, ho, hl', hshape⟩ := hs.owned i hi
    rw [← hshape]
    exact hl'.type?_eq hw hc hm (ho.agrees hw hc hm)
  refine ⟨fun p h ↦ typed h, fun hnone ↦ ?_, fun hshape hargs e he ↦ ?_⟩
  · cases h : g.compile output none with
    | error e => exact ⟨e, rfl⟩
    | ok p => exact absurd ⟨p.result, (typed h).1⟩ hnone
  · obtain ⟨hreach, code, scopes, ho, hf⟩ := Compile.blamed_of_compile hn he
    exact hf.parameterConflict_of_hasShape hw hc hm hacyclic ho
      (hshape.of_reaches hc hargs hreach) fun n hn' ↦ hargs _ n hreach hn'

/-- A composite applied to a scalar parameter, and its product with a vector parameter of the same
position. -/
def clashingParameters : List Action :=
  [.parameter 0 (.of .float), .compositeUnary, .setEdge ⟨2⟩ .input (some ⟨0⟩), .unary .negate ⟨1⟩,
    .output ⟨3⟩, .setBody ⟨2⟩ ⟨4⟩, .parameter 0 (.of .float2), .binary .mul ⟨2⟩ ⟨5⟩, .output ⟨6⟩,
    .output ⟨2⟩]

/-- The composite alone is compiled to its type, and nothing but the clash is wrong with the
product. -/
theorem compile_clashingParameters :
    let g := after clashingParameters
    (∃ p, g.compile ⟨8⟩ none = .ok p ∧ g.type? ⟨8⟩ = some (.of p.result) ∧
      ∀ i ∈ p.instrs, g.type? i.source = some (.of i.shape)) ∧
    ∃ e, g.compile ⟨7⟩ none = .error e ∧
      ∃ id index expected found, e = .parameterConflict id index expected found := by
  intro g
  have hsteps : Steps empty g := steps_foldl_apply .empty clashingParameters
  have hw : g.WellFormed := hsteps.wellFormed .empty
  have hc : g.Consistent := consistent_empty.steps .empty hsteps (by decide +kernel)
  have hrank : ∀ a ∈ g.ids, ∀ b ∈ g.edges a,
      [8, 7, 6, 5, 2, 4, 3, 1, 0].idxOf a.index < [8, 7, 6, 5, 2, 4, 3, 1, 0].idxOf b.index := by
    decide +kernel
  have hacyclic : g.Acyclic := acyclic_of_rank _ fun a b hread ↦ by
    obtain ⟨n, hn, -⟩ := exists_node_of_mem_edges hread
    exact hrank a (mem_ids.2 (contains_of_node? hn)) b hread
  have harguments : ∀ id ∈ g.ids, ∀ n ∈ g.node? id, ∀ a ∈ n.arguments,
      (∀ t ∈ g.type? a.1, t = g.edgeType a.2) ∧ (g.edgeType a.2).isConcrete := by decide +kernel
  have hm : g.Mirrored := fun id n hn a ha ↦
    (harguments id (mem_ids.2 (contains_of_node? hn)) n hn a ha).1
  have hshape : ∀ id n, g.node? id = some n → g.ArgumentsHaveShapes n := fun id n hn a ha ↦
    ValueType.isConcrete_iff.1 (harguments id (mem_ids.2 (contains_of_node? hn)) n hn a ha).2
  have hn₈ : g.node? ⟨8⟩ = some (.output (some ⟨2⟩)) := by decide +kernel
  have hn₇ : g.node? ⟨7⟩ = some (.output (some ⟨6⟩)) := by decide +kernel
  constructor
  · cases h : g.compile ⟨8⟩ none with
    | ok p => exact ⟨p, rfl, (compile_typed hw hacyclic hc hm hn₈).1 p h⟩
    | error e =>
        have hok : (g.compile ⟨8⟩ none).toBool = true := by decide +kernel
        rw [h] at hok
        cases hok
  · cases h : g.compile ⟨7⟩ none with
    | ok p =>
        have hok : (g.compile ⟨7⟩ none).toBool = false := by decide +kernel
        rw [h] at hok
        cases hok
    | error e =>
        exact ⟨e, rfl, (compile_typed hw hacyclic hc hm hn₇).2.2 ⟨.float2, by decide +kernel⟩
          (fun id n _ hn ↦ hshape id n hn) e h⟩

end Graph

end FieldGraph
