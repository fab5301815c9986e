import FieldGraph.Proofs.Graph.Cycles
import FieldGraph.Proofs.Graph.Denotation
import FieldGraph.Proofs.Program.Execution

/-!
# What programs are compiled from

Values and shapes are two readings of a graph.  What the compiler does is decided by them: it gives
a program exactly where an output has a shape, the parameters of the program are what it takes for
the output to have one, and a call returns the value of the output.  So outputs that denote the same
in both readings are compiled alike.
-/

namespace FieldGraph

open Relation

namespace Graph

/-! ## The values -/

/-- Nodes read for their values: a parameter is the argument of its position. -/
def values (args : List Value) : Reading Value where
  parameter index _ x := args[index]? = some x
  apply
    | .constant v, _ => some v
    | .output _, [x] => some x
    | .unary op _, [x] => some (op.apply x)
    | .binary op _ _, [x, y] => some (op.applyWide x y)
    | .construct _, xs => (xs.mapM Value.toFloat?).bind Value.ofList?
    | _, _ => none
  parameter_unique hx hy := Option.some.inj (hx.symm.trans hy)
  apply_mapEdges f n xs := by cases n <;> rcases xs with _ | ⟨x, _ | ⟨y, _ | ⟨z, xs⟩⟩⟩ <;> rfl

variable {g : Graph} {id : NodeId}

private theorem mapM_toFloat? (xs : List Scalar) :
    (xs.map Value.float).mapM Value.toFloat? = some xs := by
  induction xs with
  | nil => rfl
  | cons x xs ih =>
      rw [List.map_cons, List.mapM_cons, ih]
      rfl

/-- The value of a node is what it denotes. -/
theorem Evaluates.denotes {args : List Value} {env : List (NodeId × Value)} {v : Value}
    (h : g.Evaluates args env id v) :
    g.Denotes (values args) (fun p ↦ env.lookup p) id v := by
  induction h with
  | constant hn => exact (denotes_operation_iff hn rfl rfl).2 ⟨[], .nil, rfl⟩
  | bound hn hb =>
      refine (denotes_parameter_iff hn).2 ?_
      rw [Reading.Input, hb]
  | argument hn hb ha =>
      refine (denotes_parameter_iff hn).2 ?_
      rw [Reading.Input, hb]
      exact ha
  | output hn _ ih =>
      exact (denotes_operation_iff hn rfl rfl).2 ⟨[_], .cons ⟨_, rfl, ih⟩ .nil, rfl⟩
  | unary hn _ ih =>
      exact (denotes_operation_iff hn rfl rfl).2 ⟨[_], .cons ⟨_, rfl, ih⟩ .nil, rfl⟩
  | binary hn _ _ iha ihb =>
      exact (denotes_operation_iff hn rfl rfl).2
        ⟨[_, _], .cons ⟨_, rfl, iha⟩ (.cons ⟨_, rfl, ihb⟩ .nil), rfl⟩
  | @construct env id slots v hn _ hv ih =>
      refine (denotes_operation_iff hn rfl rfl).2
        ⟨(slots.map Prod.snd).map Value.float, supplied_iff.2
          ⟨slots.map fun b ↦ (b.1, Value.float b.2), ?_, ?_, fun o ho ↦ ?_⟩, ?_⟩
      · rw [List.map_map]
        rfl
      · rw [List.map_map, List.map_map]
        rfl
      · obtain ⟨b, hb, rfl⟩ := List.mem_map.1 ho
        exact ih b hb
      · change (((slots.map Prod.snd).map Value.float).mapM Value.toFloat?).bind Value.ofList? = _
        rw [mapM_toFloat?]
        exact hv
  | @composite env id body n given v hn hbody hargs _ _ iha ihv =>
      have hc := Node.isComposite_of_body? hbody
      refine (denotes_composite_iff hn hbody).2 ⟨given.map Given.value, supplied_iff.2
        ⟨given.map fun b ↦ (b.source, b.value), ?_, ?_, fun o ho ↦ ?_⟩, ?_⟩
      · rw [← Node.arguments_map_snd hc, hargs, List.map_map, List.map_map]
        rfl
      · rw [List.map_map]
        rfl
      · obtain ⟨b, hb, rfl⟩ := List.mem_map.1 ho
        exact iha b hb
      · have hps : n.placeholders = given.map Given.placeholder := by
          rw [← Node.arguments_map_fst, hargs, List.map_map]
          rfl
        have henv : Env.bind (fun p ↦ env.lookup p) n.placeholders (given.map Given.value) =
            fun p ↦ (given.map Given.bound ++ env).lookup p := by
          funext p
          rw [Env.bind, hps, List.zip_map', List.lookup_append]
          rfl
        rw [henv]
        exact ihv

/-! ## The shapes -/

/-- Nodes read for their shapes: a parameter has the shape that it declares, if that is allowed at
its position. -/
def shapes (allowed : Nat → Shape → Prop) : Reading Shape where
  parameter index t s := t = .of s ∧ allowed index s
  apply
    | .constant v, _ => some v.shape
    | .output _, [s] => some s
    | .unary op _, [s] => (op.shapeOf s).shape?
    | .binary op _ _, [s, t] => (op.shapeOf s t).shape?
    | .construct _, ss => if ∀ s ∈ ss, s = .float then Shape.ofDim? ss.length else none
    | _, _ => none
  parameter_unique hx hy := ValueType.of.inj (hx.1.symm.trans hy.1)
  apply_mapEdges f n xs := by cases n <;> rcases xs with _ | ⟨x, _ | ⟨y, _ | ⟨z, xs⟩⟩⟩ <;> rfl

theorem Denotes.shapes_mono {allowed allowed' : Nat → Shape → Prop} {env : Env Shape} {s : Shape}
    (h : g.Denotes (shapes allowed) env id s)
    (hle : ∀ index s, allowed index s → allowed' index s) :
    g.Denotes (shapes allowed') env id s :=
  h.weaken (fun hx ↦ ⟨hx.1, hle _ _ hx.2⟩) rfl

/-- A node has at most one shape, whatever is allowed. -/
theorem Denotes.shape_eq {allowed allowed' : Nat → Shape → Prop} {env : Env Shape} {s s' : Shape}
    (h : g.Denotes (shapes allowed) env id s) (h' : g.Denotes (shapes allowed') env id s') :
    s = s' := by
  have hs : g.Denotes (shapes fun _ _ ↦ True) env id s := h.shapes_mono fun _ _ _ ↦ trivial
  have hs' : g.Denotes (shapes fun _ _ ↦ True) env id s' := h'.shapes_mono fun _ _ _ ↦ trivial
  exact hs.eq hs'

end Graph

namespace Compile

variable {g : Graph} {code : List Instr} {output : NodeId} {scopes : List Scope} {id : NodeId}
  {v : Operand} {allowed : Nat → Shape → Prop}

/-! ## Lowered nodes -/

/-- The shapes of the placeholders that scopes bind. -/
def shapesIn (scopes : List Scope) : Graph.Env Shape := fun p ↦ (bound? scopes p).map Operand.shape

theorem shapesIn_cons {n : Node} {bindings : List Binding}
    (hargs : n.arguments = bindings.map Binding.argument) :
    shapesIn (⟨id, bindings.map Binding.bound⟩ :: scopes) =
      (shapesIn scopes).bind n.placeholders (bindings.map fun b ↦ b.value.shape) := by
  have hps : n.placeholders = bindings.map Binding.placeholder := by
    rw [← Node.arguments_map_fst, hargs, List.map_map]
    rfl
  funext p
  rw [shapesIn, bound?_cons, Graph.Env.bind, hps, List.zip_map']
  change (((bindings.map Binding.bound).lookup p).or _).map Operand.shape = _
  rw [show (bindings.map fun b ↦ (b.placeholder, b.value.shape)) =
    (bindings.map Binding.bound).map fun b ↦ (b.1, b.2.shape) by rw [List.map_map]; rfl,
    lookup_map_snd]
  cases (bindings.map Binding.bound).lookup p <;> rfl

/-- The arguments of a composite, as they are supplied to it. -/
theorem sources_eq_of_arguments {n : Node} {bindings : List Binding} (hc : n.isComposite)
    (hargs : n.arguments = bindings.map Binding.argument) :
    n.sources = (bindings.map fun b ↦ (b.source, b.value.shape)).map fun o ↦ some o.1 := by
  rw [← Node.arguments_map_snd hc, hargs, List.map_map, List.map_map]
  rfl

/-- An operand that stands for a node has the shape that the node denotes. -/
theorem Lowered.denotes (h : Lowered g code scopes id v)
    (hallowed : ∀ i ∈ code, ∀ index, i.operation = .param index → allowed index i.shape) :
    g.Denotes (Graph.shapes allowed) (shapesIn scopes) id v.shape := by
  induction h with
  | constant hn hs =>
      exact (Graph.denotes_operation_iff hn rfl rfl).2 ⟨[], .nil, congrArg some hs.symm⟩
  | bound hn hb =>
      refine (Graph.denotes_parameter_iff hn).2 ?_
      rw [Graph.Reading.Input, shapesIn, hb]
      rfl
  | load hn hb hi =>
      refine (Graph.denotes_parameter_iff hn).2 ?_
      rw [Graph.Reading.Input, shapesIn, hb]
      exact ⟨rfl, hallowed _ (List.mem_of_getElem? hi) _ rfl⟩
  | output hn _ ih =>
      exact (Graph.denotes_operation_iff hn rfl rfl).2 ⟨[_], .cons ⟨_, rfl, ih⟩ .nil, rfl⟩
  | unary hn _ hs _ ih =>
      exact (Graph.denotes_operation_iff hn rfl rfl).2
        ⟨[_], .cons ⟨_, rfl, ih⟩ .nil, ValueType.shape?_eq_some_iff.2 hs⟩
  | binary hn _ _ hs _ _ _ iha ihb =>
      exact (Graph.denotes_operation_iff hn rfl rfl).2
        ⟨[_, _], .cons ⟨_, rfl, iha⟩ (.cons ⟨_, rfl, ihb⟩ .nil), ValueType.shape?_eq_some_iff.2 hs⟩
  | @construct scopes id slots v hn _ hs _ ih =>
      refine (Graph.denotes_operation_iff hn rfl rfl).2
        ⟨slots.map fun _ ↦ .float, Graph.supplied_iff.2
          ⟨slots.map fun b ↦ (b.1, .float), ?_, ?_, fun o ho ↦ ?_⟩, ?_⟩
      · rw [List.map_map]
        rfl
      · rw [List.map_map]
        rfl
      · obtain ⟨b, hb, rfl⟩ := List.mem_map.1 ho
        exact ih b hb
      · have hfloat : ∀ s ∈ slots.map fun _ ↦ Shape.float, s = .float := fun s hmem ↦ by
          obtain ⟨-, -, rfl⟩ := List.mem_map.1 hmem
          rfl
        change (if ∀ s ∈ slots.map fun _ ↦ Shape.float, s = .float then _ else none) = _
        rw [if_pos hfloat, List.length_map, hs]
  | @composite scopes id body n bindings v hn hbody hargs _ _ iha ihv =>
      have hsources := sources_eq_of_arguments (Node.isComposite_of_body? hbody) hargs
      refine (Graph.denotes_composite_iff hn hbody).2 ⟨bindings.map fun b ↦ b.value.shape,
        Graph.supplied_iff.2 ⟨_, hsources, ?_, fun o ho ↦ ?_⟩, ?_⟩
      · rw [List.map_map]
        rfl
      · obtain ⟨b, hb, rfl⟩ := List.mem_map.1 ho
        exact iha b hb
      · rw [← shapesIn_cons hargs]
        exact ihv

theorem Lowered.shape_eq (h : Lowered g code scopes id v) {s : Shape}
    (hs : g.Denotes (Graph.shapes allowed) (shapesIn scopes) id s) : v.shape = s := by
  have hv : g.Denotes (Graph.shapes fun _ _ ↦ True) (shapesIn scopes) id v.shape :=
    h.denotes fun _ _ _ _ ↦ trivial
  exact hv.shape_eq hs

/-! ## Visited nodes -/

variable {result : Shape}

/-- Where an output has a shape, so has every node that lowering it comes to. -/
theorem Visited.denotes (h : Visited g code output scopes id)
    (hroot : g.Denotes (Graph.shapes allowed) Graph.Env.empty output result) :
    ∃ s, g.Denotes (Graph.shapes allowed) (shapesIn scopes) id s := by
  induction h with
  | output => exact ⟨result, hroot⟩
  | operand _ hn ha ih =>
      obtain ⟨s, hs⟩ := ih
      obtain ⟨a, t, heq, ht⟩ := hs.exists_of_mem_sources hn (Node.mem_operands_iff.1 ha)
      cases heq
      exact ⟨t, ht⟩
  | @body scopes id body n bindings _ hn hbody hargs ha ih =>
      obtain ⟨s, hs⟩ := ih
      obtain ⟨ss, hss, hs⟩ := (Graph.denotes_composite_iff hn hbody).1 hs
      have hsources := sources_eq_of_arguments (Node.isComposite_of_body? hbody) hargs
      -- the arguments have been lowered to operands of the shapes that they denote
      have heq := hss.eq_map hsources fun o ho t ht ↦ by
        obtain ⟨b, hb, rfl⟩ := List.mem_map.1 ho
        exact (ha b hb).shape_eq ht
      rw [← heq, List.map_map] at hs
      rw [shapesIn_cons hargs]
      exact ⟨s, hs⟩

/-- What a visited parameter asks for is allowed at its position. -/
theorem Demanded.of_denotes {index : Nat} {shape : Shape} (h : Demanded g code output index shape)
    (hroot : g.Denotes (Graph.shapes allowed) Graph.Env.empty output result) :
    allowed index shape := by
  obtain ⟨scopes, id, hv, hn, hb⟩ := h
  obtain ⟨s, hs⟩ := hv.denotes hroot
  rw [Graph.denotes_parameter_iff hn, Graph.Reading.Input, shapesIn, hb] at hs
  cases hs.1
  exact hs.2

private theorem construct_shape {slots : List Edge} {ss : List Shape} {s : Shape}
    (h : (Graph.shapes allowed).apply (.construct slots) ss = some s) :
    (∀ t ∈ ss, t = .float) ∧ Shape.ofDim? ss.length = some s := by
  change (if ∀ t ∈ ss, t = .float then Shape.ofDim? ss.length else none) = some s at h
  split at h
  next hfloat => exact ⟨hfloat, h⟩
  next => cases h

/-- A node with a shape has no fault, where only one shape is allowed at each position. -/
theorem Fault.not_of_denotes {e : CompileError} {s : Shape} (h : Fault g code output scopes e)
    (hs : g.Denotes (Graph.shapes allowed) (shapesIn scopes) e.node s)
    (hroot : g.Denotes (Graph.shapes allowed) Graph.Env.empty output result)
    (hunique : ∀ index s s', allowed index s → allowed index s' → s = s') : False := by
  have wired {n : Node} (hn : g.node? e.node = some n) : none ∉ n.sources := fun hmem ↦ by
    obtain ⟨a, t, heq, -⟩ := hs.exists_of_mem_sources hn hmem
    cases heq
  cases h with
  | unknownNode hn =>
      obtain ⟨n, hn'⟩ := hs.exists_node?
      cases hn.symm.trans hn'
  | missingInput hn hc hp => exact wired hn (Node.mem_sources_of_port? hp hc)
  | missingSlot hn hslot => exact wired hn (List.mem_of_getElem? hslot)
  | missingBody hn hc hb => exact Graph.not_denotes_of_body?_eq_none hn hc hb hs
  | missingArgument hn ha =>
      have hmem := List.mem_of_getElem? ha
      rw [Node.arguments_eq_zip] at hmem
      exact wired hn (List.of_mem_zip hmem).2
  | unsupportedUnary hn ha hne =>
      obtain ⟨ts, hts, hs⟩ := (Graph.denotes_operation_iff hn rfl rfl).1 hs
      rcases hts with _ | ⟨⟨_, heq, ht⟩, hnil⟩
      cases heq
      cases hnil
      rw [← ha.shape_eq ht] at hs
      exact hne s (ValueType.shape?_eq_some_iff.1 hs)
  | unsupportedBinary hn ha hb hne =>
      obtain ⟨ts, hts, hs⟩ := (Graph.denotes_operation_iff hn rfl rfl).1 hs
      rcases hts with _ | ⟨⟨_, heq, ht⟩, _ | ⟨⟨_, heq', hu⟩, hnil⟩⟩
      cases heq
      cases heq'
      cases hnil
      rw [← ha.shape_eq ht, ← hb.shape_eq hu] at hs
      exact hne s (ValueType.shape?_eq_some_iff.1 hs)
  | unsupportedSlot hn hslot ha hne =>
      obtain ⟨ts, hts, hs⟩ := (Graph.denotes_operation_iff hn rfl rfl).1 hs
      obtain ⟨os, rfl, rfl, ho⟩ := Graph.supplied_iff.1 hts
      obtain ⟨o, hmem, heq⟩ := List.mem_map.1 (List.mem_of_getElem? hslot)
      cases heq
      have hfloat := (construct_shape hs).1 o.2 (List.mem_map.2 ⟨o, hmem, rfl⟩)
      exact hne ((ha.shape_eq (ho o hmem)).trans hfloat)
  | unsupportedArity hn hdim =>
      obtain ⟨ts, hts, hs⟩ := (Graph.denotes_operation_iff hn rfl rfl).1 hs
      have hlen := (construct_shape hs).2
      rw [← hts.length_eq] at hlen
      cases hdim.symm.trans hlen
  | unresolved hn hb hne =>
      have hs := (Graph.denotes_parameter_iff hn).1 hs
      rw [Graph.Reading.Input, shapesIn, hb] at hs
      exact hne s hs.1
  | parameterConflict hn hb hd hne =>
      have hs := (Graph.denotes_parameter_iff hn).1 hs
      rw [Graph.Reading.Input, shapesIn, hb] at hs
      cases hs.1
      exact hne (hunique _ _ _ (hd.of_denotes hroot) hs.2)
  | cycle hcycle => exact Graph.not_transGen_self_of_acc hs.acc hcycle

/-! ## Programs -/

variable {p : Program} {expected : Option ValueType} {source : Edge}

/-- The output of a program denotes its result, where the parameters have the shapes that the
program asks for. -/
theorem denotes_of_compile (h : g.compile output expected = .ok p) :
    g.Denotes (Graph.shapes fun index s ↦ p.params[index]?.join = some s) Graph.Env.empty output
      p.result := by
  obtain ⟨s, v, -, -, hs, hl, rfl⟩ := exists_lowered_of_compile h
  exact hl.denotes hs.params

/-- An output with a shape is compiled, and the program asks for no more than is allowed. -/
theorem exists_program_of_denotes (hn : g.node? output = some (.output source))
    (hroot : g.Denotes (Graph.shapes allowed) Graph.Env.empty output result)
    (hunique : ∀ index s s', allowed index s → allowed index s' → s = s') :
    ∃ p, g.compile output none = .ok p ∧ p.result = result ∧
      ∀ index s, p.params[index]?.join = some s → allowed index s := by
  cases h : g.compile output none with
  | error e =>
      rcases blamed_of_compile_expecting hn h with ⟨code, scopes, hv, hf⟩ | ⟨t, shape, ht, -⟩
      · obtain ⟨s, hs⟩ := hv.denotes hroot
        exact (hf.not_of_denotes hs hroot hunique).elim
      · cases ht
  | ok p =>
      refine ⟨p, rfl, (denotes_of_compile h).shape_eq hroot, fun index s hs ↦ ?_⟩
      obtain ⟨state, v, -, -, hsound, -, rfl⟩ := exists_lowered_of_compile h
      exact (hsound.demanded index s hs).of_denotes hroot

/-- The parameters of a program end with one that is asked for. -/
theorem getLast?_params (h : g.compile output expected = .ok p) :
    p.params.getLast? ≠ some none := by
  obtain ⟨s, v, -, -, hs, -, rfl⟩ := exists_lowered_of_compile h
  exact hs.last

/-- Lists that do not end with a gap are equal if they ask for the same at every position. -/
theorem eq_of_join_eq {params params' : List (Option Shape)}
    (hlast : params.getLast? ≠ some none) (hlast' : params'.getLast? ≠ some none)
    (h : ∀ (index : Nat) s, params[index]?.join = some s ↔ params'[index]?.join = some s) :
    params = params' := by
  have hle {l l' : List (Option Shape)} (hlast : l.getLast? ≠ some none)
      (h : ∀ (index : Nat) s, l[index]?.join = some s → l'[index]?.join = some s) :
      l.length ≤ l'.length := by
    rcases Nat.eq_zero_or_pos l.length with hzero | hpos
    · omega
    · have hget : l[l.length - 1]? = some l[l.length - 1] := List.getElem?_eq_getElem (by omega)
      rw [List.getLast?_eq_getElem?, hget] at hlast
      obtain ⟨s, hs⟩ := Option.ne_none_iff_exists'.1 fun hnone ↦ hlast (congrArg some hnone)
      have hs' := h (l.length - 1) s (by rw [hget, hs]; rfl)
      obtain ⟨hlt, -⟩ := List.getElem?_eq_some_iff.1 (Option.join_eq_some_iff.1 hs')
      omega
  have hlen : params.length = params'.length :=
    Nat.le_antisymm (hle hlast fun index s ↦ (h index s).1) (hle hlast' fun index s ↦ (h index s).2)
  refine List.ext_getElem hlen fun i hi hi' ↦ Option.ext fun s ↦ ?_
  have hs := h i s
  rwa [List.getElem?_eq_getElem hi, List.getElem?_eq_getElem hi', Option.join_some,
    Option.join_some] at hs

/-- On arguments that it accepts, a program returns the value of its output. -/
theorem denotes_call (h : g.compile output expected = .ok p) {args : List Value}
    (ha : p.checkArgs args = .ok ()) :
    ∃ v, p.call args = .ok v ∧ g.Denotes (Graph.values args) Graph.Env.empty output v := by
  have hval := (evaluates_run h fun _ _ ↦ Program.exists_shape_of_checkArgs ha).1
  exact ⟨_, Program.call_of_checkArgs ha, hval.denotes⟩

end Compile

/-! ## Programs that do the same -/

/-- Two ways to compile end alike: both fail, or both give a program, with the same parameters and
the same result, and the same comes of every call. -/
inductive SameOutcome : Except CompileError Program → Except CompileError Program → Prop
  | error (e e' : CompileError) : SameOutcome (.error e) (.error e')
  | ok {p p' : Program} (hparams : p.params = p'.params) (hresult : p.result = p'.result)
      (hcall : ∀ args, p.call args = p'.call args) : SameOutcome (.ok p) (.ok p')

theorem SameOutcome.params_eq {r r' : Except CompileError Program} (h : SameOutcome r r') :
    r.toOption.map Program.params = r'.toOption.map Program.params := by
  cases h with
  | error => rfl
  | ok hparams => exact congrArg some hparams

namespace Compile

variable {g : Graph} {output output' : NodeId} {source source' : Edge}

/-- A type that is expected is compared with the result, and plays no other part. -/
theorem compile_expecting (hn : g.node? output = some (.output source)) (t : ValueType) :
    g.compile output (some t) = (g.compile output none).bind fun p ↦
      if .of p.result ≠ t then .error (.typeMismatch output t p.result) else .ok p := by
  rw [compile_eq, compile_eq, compileBy, compileBy, hn]
  simp only
  cases lowerScope g g.composites [] output State.init <;> rfl

/-- The one shape that a program asks for at a position. -/
private theorem params_unique {params : List (Option Shape)} (index : Nat) (s s' : Shape)
    (h : params[index]?.join = some s) (h' : params[index]?.join = some s') : s = s' :=
  Option.some.inj (h.symm.trans h')

/-- Programs compiled from outputs that denote the same. -/
theorem exists_program_of_same (hn' : g.node? output' = some (.output source'))
    (h : ∀ {α : Type} (R : Graph.Reading α) env x,
      g.Denotes R env output x → g.Denotes R env output' x) {p : Program}
    (hp : g.compile output none = .ok p) :
    ∃ p', g.compile output' none = .ok p' ∧ p'.result = p.result ∧
      ∀ (index : Nat) s, p'.params[index]?.join = some s → p.params[index]?.join = some s :=
  exists_program_of_denotes hn' (h _ _ _ (denotes_of_compile hp)) params_unique

/-- Outputs that denote the same in every reading are compiled alike. -/
theorem sameOutcome_compile (hn : g.node? output = some (.output source))
    (hn' : g.node? output' = some (.output source'))
    (h : ∀ {α : Type} (R : Graph.Reading α) env x,
      g.Denotes R env output x ↔ g.Denotes R env output' x) (expected : Option ValueType) :
    SameOutcome (g.compile output expected) (g.compile output' expected) := by
  have hnone : SameOutcome (g.compile output none) (g.compile output' none) := by
    cases hp : g.compile output none with
    | error e =>
        cases hp' : g.compile output' none with
        | error e' => exact .error e e'
        | ok p' =>
            obtain ⟨p, hp₂, -⟩ := exists_program_of_same hn (fun R env x ↦ (h R env x).2) hp'
            cases hp.symm.trans hp₂
    | ok p =>
        obtain ⟨p', hp', hresult, hle⟩ :=
          exists_program_of_same hn' (fun R env x ↦ (h R env x).1) hp
        obtain ⟨p₂, hp₂, -, hge⟩ := exists_program_of_same hn (fun R env x ↦ (h R env x).2) hp'
        cases hp.symm.trans hp₂
        have hparams : p.params = p'.params :=
          eq_of_join_eq (getLast?_params hp) (getLast?_params hp') fun index s ↦
            ⟨hge index s, hle index s⟩
        rw [hp']
        refine .ok hparams hresult.symm fun args ↦ ?_
        have hcheck : p.checkArgs args = p'.checkArgs args := by
          rw [Program.checkArgs, Program.checkArgs, hparams]
        cases hargs : p.checkArgs args with
        | error e => rw [Program.call, Program.call, ← hcheck, hargs]; rfl
        | ok _ =>
            obtain ⟨v, hv, hd⟩ := denotes_call hp hargs
            obtain ⟨v', hv', hd'⟩ := denotes_call hp' (hcheck ▸ hargs)
            rw [hv, hv', ((h _ _ _).1 hd).eq hd']
  cases expected with
  | none => exact hnone
  | some t =>
      rw [compile_expecting hn, compile_expecting hn']
      generalize g.compile output none = r at hnone ⊢
      generalize g.compile output' none = r' at hnone ⊢
      cases hnone with
      | error e e' => exact .error e e'
      | ok hparams hresult hcall =>
          simp only [Except.bind, hresult]
          split
          · exact .error _ _
          · exact .ok hparams hresult hcall

end Compile

end FieldGraph
