import FieldGraph.Graph.Basic
import FieldGraph.Proofs.Operator

/-!
# The value of a node

The value of a node follows from the graph alone, by recursion over the nodes it reads.  It depends
on the arguments of the whole graph and on what the composites around it are applied to.  On a cycle
there is no value, and there is never more than one.
-/

namespace FieldGraph.Graph

/-- An argument of a composite with its value. -/
structure Given where
  placeholder : NodeId
  source : NodeId
  value : Value

namespace Given

def argument (b : Given) : NodeId × Edge := (b.placeholder, some b.source)

def bound (b : Given) : NodeId × Value := (b.placeholder, b.value)

end Given

/-- The value of a node, given the positional arguments and the values of the placeholders that are
bound, those of the innermost composite first. -/
inductive Evaluates (g : Graph) (args : List Value) :
    List (NodeId × Value) → NodeId → Value → Prop
  | constant {env : List (NodeId × Value)} {id : NodeId} {v : Value}
      (hn : g.node? id = some (.constant v)) : Evaluates g args env id v
  | bound {env : List (NodeId × Value)} {id : NodeId} {index : Nat} {declared : ValueType}
      {v : Value} (hn : g.node? id = some (.parameter index declared))
      (hb : env.lookup id = some v) : Evaluates g args env id v
  | argument {env : List (NodeId × Value)} {id : NodeId} {index : Nat} {declared : ValueType}
      {v : Value} (hn : g.node? id = some (.parameter index declared))
      (hb : env.lookup id = none) (ha : args[index]? = some v) : Evaluates g args env id v
  | output {env : List (NodeId × Value)} {id a : NodeId} {v : Value}
      (hn : g.node? id = some (.output (some a))) (ha : Evaluates g args env a v) :
      Evaluates g args env id v
  | unary {env : List (NodeId × Value)} {id a : NodeId} {op : UnaryOp} {x : Value}
      (hn : g.node? id = some (.unary op (some a))) (ha : Evaluates g args env a x) :
      Evaluates g args env id (op.apply x)
  | binary {env : List (NodeId × Value)} {id a b : NodeId} {op : BinaryOp} {x y : Value}
      (hn : g.node? id = some (.binary op (some a) (some b))) (ha : Evaluates g args env a x)
      (hb : Evaluates g args env b y) : Evaluates g args env id (op.applyWide x y)
  | construct {env : List (NodeId × Value)} {id : NodeId} {slots : List (NodeId × Scalar)}
      {v : Value} (hn : g.node? id = some (.construct (slots.map fun b ↦ some b.1)))
      (ha : ∀ b ∈ slots, Evaluates g args env b.1 (.float b.2))
      (hv : Value.ofList? (slots.map Prod.snd) = some v) : Evaluates g args env id v
  | composite {env : List (NodeId × Value)} {id body : NodeId} {n : Node} {given : List Given}
      {v : Value} (hn : g.node? id = some n) (hbody : n.body?.join = some body)
      (hargs : n.arguments = given.map Given.argument)
      (ha : ∀ b ∈ given, Evaluates g args env b.source b.value)
      (hv : Evaluates g args (given.map Given.bound ++ env) body v) :
      Evaluates g args env id v

variable {g : Graph} {args : List Value} {env : List (NodeId × Value)} {id : NodeId} {v w : Value}

/-! ## One node -/

theorem evaluates_constant_iff (hn : g.node? id = some (.constant v)) :
    g.Evaluates args env id w ↔ v = w := by
  constructor
  · intro h
    cases h with
    | composite hn' hbody =>
        cases hn.symm.trans hn'
        cases hbody
    | constant hn' => cases hn.symm.trans hn'; rfl
    | bound hn' | argument hn' | output hn' | unary hn' | binary hn' | construct hn' =>
        cases hn.symm.trans hn'
  · rintro rfl
    exact .constant hn

/-- What an enclosing composite binds comes before the positional argument. -/
theorem evaluates_parameter_iff {index : Nat} {declared : ValueType}
    (hn : g.node? id = some (.parameter index declared)) :
    g.Evaluates args env id w ↔ (env.lookup id).or args[index]? = some w := by
  constructor
  · intro h
    cases h with
    | bound hn' hb => rw [hb, Option.some_or]
    | argument hn' hb ha =>
        cases hn.symm.trans hn'
        rw [hb, Option.none_or, ha]
    | composite hn' hbody =>
        cases hn.symm.trans hn'
        cases hbody
    | constant hn' | output hn' | unary hn' | binary hn' | construct hn' =>
        cases hn.symm.trans hn'
  · intro h
    rcases Option.or_eq_some_iff.1 h with hb | ⟨hb, ha⟩
    · exact .bound hn hb
    · exact .argument hn hb ha

theorem evaluates_output_iff {a : NodeId} (hn : g.node? id = some (.output (some a))) :
    g.Evaluates args env id w ↔ g.Evaluates args env a w := by
  constructor
  · intro h
    cases h with
    | output hn' ha => cases hn.symm.trans hn'; exact ha
    | composite hn' hbody =>
        cases hn.symm.trans hn'
        cases hbody
    | constant hn' | bound hn' | argument hn' | unary hn' | binary hn' | construct hn' =>
        cases hn.symm.trans hn'
  · exact .output hn

theorem evaluates_unary_iff {op : UnaryOp} {a : NodeId}
    (hn : g.node? id = some (.unary op (some a))) :
    g.Evaluates args env id w ↔ ∃ x, g.Evaluates args env a x ∧ op.apply x = w := by
  constructor
  · intro h
    cases h with
    | unary hn' ha => cases hn.symm.trans hn'; exact ⟨_, ha, rfl⟩
    | composite hn' hbody =>
        cases hn.symm.trans hn'
        cases hbody
    | constant hn' | bound hn' | argument hn' | output hn' | binary hn' | construct hn' =>
        cases hn.symm.trans hn'
  · rintro ⟨x, ha, rfl⟩
    exact .unary hn ha

theorem evaluates_binary_iff {op : BinaryOp} {a b : NodeId}
    (hn : g.node? id = some (.binary op (some a) (some b))) :
    g.Evaluates args env id w ↔
      ∃ x y, g.Evaluates args env a x ∧ g.Evaluates args env b y ∧ op.applyWide x y = w := by
  constructor
  · intro h
    cases h with
    | binary hn' ha hb => cases hn.symm.trans hn'; exact ⟨_, _, ha, hb, rfl⟩
    | composite hn' hbody =>
        cases hn.symm.trans hn'
        cases hbody
    | constant hn' | bound hn' | argument hn' | output hn' | unary hn' | construct hn' =>
        cases hn.symm.trans hn'
  · rintro ⟨x, y, ha, hb, rfl⟩
    exact .binary hn ha hb

theorem evaluates_construct_iff {slots : List Edge} (hn : g.node? id = some (.construct slots)) :
    g.Evaluates args env id w ↔ ∃ bs : List (NodeId × Scalar), slots = bs.map (fun b ↦ some b.1) ∧
      (∀ b ∈ bs, g.Evaluates args env b.1 (.float b.2)) ∧
      Value.ofList? (bs.map Prod.snd) = some w := by
  constructor
  · intro h
    cases h with
    | construct hn' ha hv => cases hn.symm.trans hn'; exact ⟨_, rfl, ha, hv⟩
    | composite hn' hbody =>
        cases hn.symm.trans hn'
        cases hbody
    | constant hn' | bound hn' | argument hn' | output hn' | unary hn' | binary hn' =>
        cases hn.symm.trans hn'
  · rintro ⟨bs, rfl, ha, hv⟩
    exact .construct hn ha hv

theorem evaluates_composite_iff {n : Node} {body : NodeId} (hn : g.node? id = some n)
    (hbody : n.body?.join = some body) :
    g.Evaluates args env id w ↔ ∃ given : List Given, n.arguments = given.map Given.argument ∧
      (∀ b ∈ given, g.Evaluates args env b.source b.value) ∧
      g.Evaluates args (given.map Given.bound ++ env) body w := by
  constructor
  · intro h
    cases h with
    | composite hn' hbody' hargs ha hv =>
        cases hn.symm.trans hn'
        cases hbody.symm.trans hbody'
        exact ⟨_, hargs, ha, hv⟩
    | constant hn' | bound hn' | argument hn' | output hn' | unary hn' | binary hn'
    | construct hn' =>
        cases hn.symm.trans hn'
        cases hbody
  · rintro ⟨given, hargs, ha, hv⟩
    exact .composite hn hbody hargs ha hv

/-! ## Whole graphs -/

/-- Lists with the same images are equal if what has the same image in both of them is. -/
private theorem eq_of_map_eq {α β : Type} {f : α → β} {l l' : List α} (h : l.map f = l'.map f)
    (hf : ∀ x ∈ l, ∀ y ∈ l', f x = f y → x = y) : l = l' := by
  induction l generalizing l' with
  | nil => exact (List.map_eq_nil_iff.1 h.symm).symm
  | cons x l ih =>
      cases l' with
      | nil => cases h
      | cons y l' =>
          rw [List.map_cons, List.map_cons, List.cons.injEq] at h
          rw [hf x List.mem_cons_self y List.mem_cons_self h.1,
            ih h.2 fun x hx y hy ↦ hf x (List.mem_cons_of_mem _ hx) y (List.mem_cons_of_mem _ hy)]

/-- A node has at most one value. -/
theorem Evaluates.eq (h : g.Evaluates args env id v) (h' : g.Evaluates args env id w) : v = w := by
  induction h generalizing w with
  | constant hn => exact (evaluates_constant_iff hn).1 h'
  | bound hn hb =>
      rw [evaluates_parameter_iff hn, hb] at h'
      exact Option.some.inj h'
  | argument hn hb ha =>
      rw [evaluates_parameter_iff hn, hb, ha] at h'
      exact Option.some.inj h'
  | output hn _ ih => exact ih ((evaluates_output_iff hn).1 h')
  | unary hn _ ih =>
      obtain ⟨x, hx, rfl⟩ := (evaluates_unary_iff hn).1 h'
      rw [ih hx]
  | binary hn _ _ iha ihb =>
      obtain ⟨x, y, hx, hy, rfl⟩ := (evaluates_binary_iff hn).1 h'
      rw [iha hx, ihb hy]
  | construct hn _ hv ih =>
      obtain ⟨bs, hbs, ha, hw⟩ := (evaluates_construct_iff hn).1 h'
      have heq := eq_of_map_eq hbs fun b hb c hc hbc ↦ by
        obtain ⟨i, x⟩ := b
        obtain ⟨j, y⟩ := c
        cases hbc
        exact congrArg (Prod.mk i) (Value.float.inj (ih _ hb (ha (i, y) hc)))
      exact Option.some.inj (hv.symm.trans (heq ▸ hw))
  | composite hn hbody hargs _ _ iha ihv =>
      obtain ⟨given, hgiven, ha, hw⟩ := (evaluates_composite_iff hn hbody).1 h'
      have heq := eq_of_map_eq (hargs.symm.trans hgiven) fun b hb c hc hbc ↦ by
        obtain ⟨p, s, x⟩ := b
        obtain ⟨q, t, y⟩ := c
        cases hbc
        exact congrArg (Given.mk p s) (iha _ hb (ha ⟨p, s, y⟩ hc))
      exact ihv (heq ▸ hw)

end FieldGraph.Graph
