import FieldGraph.Program.Compile
import FieldGraph.Proofs.Graph.Walks
import FieldGraph.Proofs.Node

/-!
# The translation of nodes to registers

What it means that an operand stands for a node in some code, under some scopes: the instruction
that writes its register is the one the node asks for, and the registers that this instruction reads
stand for the operands of the node.  The relation says nothing about how the code was found.  It
keeps to code that goes on, and for a node that reads no placeholder it does not depend on the
scopes; so a register may be used again in every scope in which the compiler does so.
-/

namespace FieldGraph.Compile

/-- The register of an operand is written by an instruction of its shape. -/
def Writes (code : List Instr) (v : Operand) (operation : Operation) (source : NodeId) : Prop :=
  code[v.reg.index]? = some ⟨operation, v.shape, source⟩

/-- The register that a binary operator reads for an operand: its own, or a repetition of it if it
is a scalar and has to match a vector. -/
def Widens (code : List Instr) (id : NodeId) (op : BinaryOp) (shape : Shape) (x other : Operand)
    (r : Reg) : Prop :=
  if op.isComponentwise ∧ x.shape = .float ∧ other.shape ≠ .float then
    Writes code ⟨r, shape⟩ (.splat x.reg) id
  else r = x.reg

/-- An argument of a composite with the operand that stands for it. -/
structure Binding where
  placeholder : NodeId
  source : NodeId
  value : Operand

namespace Binding

def argument (b : Binding) : NodeId × Edge := (b.placeholder, some b.source)

def bound (b : Binding) : NodeId × Operand := (b.placeholder, b.value)

end Binding

/-- An operand stands for a node in some code, under some scopes. -/
inductive Lowered (g : Graph) (code : List Instr) : List Scope → NodeId → Operand → Prop
  | constant {scopes : List Scope} {id : NodeId} {c : Value} {v : Operand}
      (hn : g.node? id = some (.constant c)) (hs : v.shape = c.shape)
      (hi : Writes code v (.const c) id) : Lowered g code scopes id v
  | bound {scopes : List Scope} {id : NodeId} {index : Nat} {declared : ValueType} {v : Operand}
      (hn : g.node? id = some (.parameter index declared)) (hb : bound? scopes id = some v) :
      Lowered g code scopes id v
  | load {scopes : List Scope} {id source : NodeId} {index : Nat} {v : Operand}
      (hn : g.node? id = some (.parameter index (.of v.shape))) (hb : bound? scopes id = none)
      (hi : Writes code v (.param index) source) : Lowered g code scopes id v
  | output {scopes : List Scope} {id a : NodeId} {v : Operand}
      (hn : g.node? id = some (.output (some a))) (ha : Lowered g code scopes a v) :
      Lowered g code scopes id v
  | unary {scopes : List Scope} {id a : NodeId} {op : UnaryOp} {x v : Operand}
      (hn : g.node? id = some (.unary op (some a))) (ha : Lowered g code scopes a x)
      (hs : op.shapeOf x.shape = .of v.shape) (hi : Writes code v (.unary op x.reg) id) :
      Lowered g code scopes id v
  | binary {scopes : List Scope} {id a b : NodeId} {op : BinaryOp} {x y v : Operand} {rx ry : Reg}
      (hn : g.node? id = some (.binary op (some a) (some b))) (ha : Lowered g code scopes a x)
      (hb : Lowered g code scopes b y) (hs : op.shapeOf x.shape y.shape = .of v.shape)
      (hx : Widens code id op v.shape x y rx) (hy : Widens code id op v.shape y x ry)
      (hi : Writes code v (.binary op rx ry) id) : Lowered g code scopes id v
  | construct {scopes : List Scope} {id : NodeId} {slots : List (NodeId × Reg)} {v : Operand}
      (hn : g.node? id = some (.construct (slots.map fun b ↦ some b.1)))
      (ha : ∀ b ∈ slots, Lowered g code scopes b.1 ⟨b.2, .float⟩)
      (hs : Shape.ofDim? slots.length = some v.shape)
      (hi : Writes code v (.construct (slots.map Prod.snd)) id) : Lowered g code scopes id v
  | composite {scopes : List Scope} {id body : NodeId} {n : Node} {bindings : List Binding}
      {v : Operand} (hn : g.node? id = some n) (hbody : n.body?.join = some body)
      (hargs : n.arguments = bindings.map Binding.argument)
      (ha : ∀ b ∈ bindings, Lowered g code scopes b.source b.value)
      (hv : Lowered g code (⟨id, bindings.map Binding.bound⟩ :: scopes) body v) :
      Lowered g code scopes id v

/-- Every scope binds the placeholders of a live composite to operands that stand for its arguments
in the scopes around it. -/
inductive Opened (g : Graph) (code : List Instr) : List Scope → Prop
  | nil : Opened g code []
  | cons {scopes : List Scope} {id : NodeId} {n : Node} {bindings : List Binding}
      (ho : Opened g code scopes) (hn : g.node? id = some n)
      (hargs : n.arguments = bindings.map Binding.argument)
      (ha : ∀ b ∈ bindings, Lowered g code scopes b.source b.value) :
      Opened g code (⟨id, bindings.map Binding.bound⟩ :: scopes)

variable {g : Graph} {code code' : List Instr} {scopes scopes' : List Scope} {id : NodeId}
  {v : Operand}

/-! ## Code that goes on -/

theorem Writes.mono {operation : Operation} (h : Writes code v operation id)
    (hp : code <+: code') : Writes code' v operation id := by
  obtain ⟨more, rfl⟩ := hp
  rw [Writes, List.getElem?_append_left (List.getElem?_eq_some_iff.1 h).1]
  exact h

theorem Widens.mono {op : BinaryOp} {shape : Shape} {x y : Operand} {r : Reg}
    (h : Widens code id op shape x y r) (hp : code <+: code') :
    Widens code' id op shape x y r := by
  unfold Widens at h ⊢
  split
  next hc => rw [if_pos hc] at h; exact h.mono hp
  next hc => rwa [if_neg hc] at h

theorem Lowered.mono (h : Lowered g code scopes id v) (hp : code <+: code') :
    Lowered g code' scopes id v := by
  induction h with
  | constant hn hs hi => exact .constant hn hs (hi.mono hp)
  | bound hn hb => exact .bound hn hb
  | load hn hb hi => exact .load hn hb (hi.mono hp)
  | output hn _ ih => exact .output hn ih
  | unary hn _ hs hi ih => exact .unary hn ih hs (hi.mono hp)
  | binary hn _ _ hs hx hy hi ihx ihy =>
      exact .binary hn ihx ihy hs (hx.mono hp) (hy.mono hp) (hi.mono hp)
  | construct hn _ hs hi ih => exact .construct hn ih hs (hi.mono hp)
  | composite hn hbody hargs _ _ iha ihv => exact .composite hn hbody hargs iha ihv

theorem Opened.mono (h : Opened g code scopes) (hp : code <+: code') : Opened g code' scopes := by
  induction h with
  | nil => exact .nil
  | cons _ hn hargs ha ih => exact .cons ih hn hargs fun b hb ↦ (ha b hb).mono hp

/-! ## Other scopes -/

theorem Lowered.contains (h : Lowered g code scopes id v) : g.contains id := by
  cases h <;> exact Graph.contains_of_node? ‹_›

/-- The scopes bind nothing but placeholders. -/
def BindPlaceholders (g : Graph) (scopes : List Scope) : Prop :=
  ∀ id v, bound? scopes id = some v → id ∈ g.placeholders

theorem bound?_cons (s : Scope) (scopes : List Scope) (id : NodeId) :
    bound? (s :: scopes) id = (s.bindings.lookup id).or (bound? scopes id) := by
  rw [bound?, List.findSome?_cons]
  cases s.bindings.lookup id <;> rfl

theorem lookup_map_snd {α β : Type} (f : α → β) (l : List (NodeId × α)) (id : NodeId) :
    (l.map fun b ↦ (b.1, f b.2)).lookup id = (l.lookup id).map f := by
  induction l with
  | nil => rfl
  | cons b l ih =>
      rw [List.map_cons, List.lookup_cons, List.lookup_cons, ih]
      split <;> rfl

/-- What the innermost scope binds is the placeholder of one of its arguments. -/
theorem exists_binding_of_lookup {bindings : List Binding}
    (h : (bindings.map Binding.bound).lookup id = some v) :
    ∃ b ∈ bindings, b.placeholder = id ∧ b.value = v := by
  obtain ⟨l₁, l₂, hl, -⟩ := List.lookup_eq_some_iff.1 h
  have hmem : (id, v) ∈ bindings.map Binding.bound := by simp [hl]
  obtain ⟨b, hb, heq⟩ := List.mem_map.1 hmem
  exact ⟨b, hb, congrArg Prod.fst heq, congrArg Prod.snd heq⟩

/-- What holds of the arguments that a scope binds, and of everything bound around it, holds of
everything bound in it. -/
theorem bound?_cons_induction {motive : NodeId → Operand → Prop} {bindings : List Binding}
    (hnew : ∀ b ∈ bindings, motive b.placeholder b.value)
    (hold : ∀ p w, bound? scopes p = some w → motive p w) {p : NodeId} {w : Operand}
    (h : bound? (⟨id, bindings.map Binding.bound⟩ :: scopes) p = some w) : motive p w := by
  rw [bound?_cons] at h
  rcases Option.or_eq_some_iff.1 h with h | ⟨-, h⟩
  · obtain ⟨b, hmem, rfl, rfl⟩ := exists_binding_of_lookup h
    exact hnew b hmem
  · exact hold p w h

theorem mem_placeholders_of_arguments {n : Node} {bindings : List Binding} {b : Binding}
    (hargs : n.arguments = bindings.map Binding.argument) (hb : b ∈ bindings) :
    b.placeholder ∈ n.placeholders := by
  rw [← Node.arguments_map_fst, hargs, List.map_map]
  exact List.mem_map.2 ⟨b, hb, rfl⟩

theorem BindPlaceholders.cons {n : Node} {bindings : List Binding} (h : BindPlaceholders g scopes)
    (hn : g.node? id = some n) (hargs : n.arguments = bindings.map Binding.argument) :
    BindPlaceholders g (⟨id, bindings.map Binding.bound⟩ :: scopes) := fun _ _ ↦
  bound?_cons_induction (motive := fun p _ ↦ p ∈ g.placeholders)
    (fun _ hb ↦ Graph.mem_placeholders.2 ⟨id, n, hn, mem_placeholders_of_arguments hargs hb⟩) h

theorem bindPlaceholders_nil : BindPlaceholders g [] := fun _ _ h ↦ by cases h

theorem Opened.bindPlaceholders (h : Opened g code scopes) : BindPlaceholders g scopes := by
  induction h with
  | nil => exact bindPlaceholders_nil
  | cons _ hn hargs _ ih => exact ih.cons hn hargs

/-- Nodes that read no placeholder: none of them is one, and they read each other only. -/
def ReadNone (g : Graph) (s : NodeId → Prop) : Prop :=
  ∀ id, s id → id ∉ g.placeholders ∧ ∀ j, g.Reads id j → g.contains j → s j

/-- What reads no placeholder may be taken to any scopes. -/
theorem Lowered.rescope {s : NodeId → Prop} (hs : ReadNone g s) (h : Lowered g code scopes id v)
    (hid : s id) (hb : BindPlaceholders g scopes) (hb' : BindPlaceholders g scopes') :
    Lowered g code scopes' id v := by
  have reads {id a : NodeId} {n : Node} {scopes : List Scope} {v : Operand} (hid : s id)
      (hn : g.node? id = some n) (ha : a ∈ n.edges) (hl : Lowered g code scopes a v) : s a :=
    (hs id hid).2 a (by rwa [Graph.Reads, Graph.edges_of_node? hn]) hl.contains
  induction h generalizing scopes' with
  | constant hn hshape hi => exact .constant hn hshape hi
  | bound hn h => exact absurd (hb _ _ h) (hs _ hid).1
  | load hn h hi =>
      refine .load hn ?_ hi
      cases hb'' : bound? scopes' _ with
      | none => rfl
      | some w => exact absurd (hb' _ _ hb'') (hs _ hid).1
  | output hn ha ih => exact .output hn (ih (reads hid hn (by simp [Node.edges]) ha) hb hb')
  | unary hn ha hshape hi ih =>
      exact .unary hn (ih (reads hid hn (by simp [Node.edges]) ha) hb hb') hshape hi
  | binary hn hx hy hshape hwx hwy hi ihx ihy =>
      exact .binary hn (ihx (reads hid hn (by simp [Node.edges]) hx) hb hb')
        (ihy (reads hid hn (by simp [Node.edges]) hy) hb hb') hshape hwx hwy hi
  | construct hn ha hshape hi ih =>
      refine .construct hn (fun b hmem ↦ ih b hmem (reads hid hn ?_ (ha b hmem)) hb hb') hshape hi
      exact List.mem_filterMap.2 ⟨some b.1, List.mem_map.2 ⟨b, hmem, rfl⟩, rfl⟩
  | composite hn hbody hargs ha hv iha ihv =>
      refine .composite hn hbody hargs (fun b hmem ↦ iha b hmem (reads hid hn ?_ (ha b hmem)) hb hb')
        (ihv (reads hid hn ?_ hv) (hb.cons hn hargs) (hb'.cons hn hargs))
      · exact Node.mem_edges_of_mem_arguments (hargs ▸ List.mem_map.2 ⟨b, hmem, rfl⟩) rfl
      · exact Node.mem_edges_of_port? (Option.join_eq_some_iff.1 hbody)

/-- A closed node is among nodes that read no placeholder. -/
theorem exists_readNone_of_isClosed (h : isClosed g id) (hl : g.contains id) :
    ∃ s, ReadNone g s ∧ s id := by
  simp only [isClosed, Bool.and_eq_true, Option.isNone_iff_eq_none, List.all_eq_true,
    decide_eq_true_eq] at h
  exact ⟨(· ∈ (g.walk Node.edges true [id]).entered),
    fun j hj ↦ ⟨h.2 j hj, fun k hk hl ↦ Graph.entered_closed h.1 hj hk hl⟩,
    Graph.root_mem_entered h.1 List.mem_cons_self hl⟩

/-- A value that is kept for all scopes stands for its node in all of them. -/
theorem lowered_nil_iff (hs : isShared g scopes id) (hb : BindPlaceholders g scopes) :
    Lowered g code [] id v ↔ Lowered g code scopes id v := by
  rw [isShared, Bool.or_eq_true, List.isEmpty_iff] at hs
  rcases hs with rfl | hs
  · rfl
  · constructor
    · intro h
      obtain ⟨s, hread, hid⟩ := exists_readNone_of_isClosed hs h.contains
      exact h.rescope hread hid bindPlaceholders_nil hb
    · intro h
      obtain ⟨s, hread, hid⟩ := exists_readNone_of_isClosed hs h.contains
      exact h.rescope hread hid hb bindPlaceholders_nil

end FieldGraph.Compile
