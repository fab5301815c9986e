import FieldGraph.Proofs.Operator
import FieldGraph.Proofs.Program.Lowering

/-!
# Lowering single nodes

Each kind of node has one lemma: once its operands have been resolved, the instructions emitted for
it make an operand that stands for it, or the node is at fault.
-/

namespace FieldGraph.Compile

open Relation

variable {g : Graph} {output : NodeId} {code : List Instr} {scopes : List Scope} {id : NodeId}
  {v : Operand} {s s' : State} {operand : NodeId → Lower Operand}

/-- An operand that stands for a node in the code of a state that goes on from another one. -/
structure Stands (g : Graph) (output : NodeId) (scopes : List Scope) (id : NodeId) (s : State)
    (v : Operand) (s' : State) : Prop where
  sound : Sound g output s'
  onward : Extends s s'
  lowered : Lowered g s'.instrs scopes id v

/-- Looking up an operand changes nothing.  It finds an operand that stands for the node unless the
node is dead. -/
def Resolves (g : Graph) (scopes : List Scope) (s : State) (operand : NodeId → Lower Operand)
    (a : NodeId) : Prop :=
  Outcome (operand a) s (fun v s' ↦ s' = s ∧ Lowered g s.instrs scopes a v)
    fun e ↦ e = .unknownNode a ∧ g.node? a = none

theorem Visited.blamed {e : CompileError} (hv : Visited g code output scopes e.node)
    (hf : Fault g code output scopes e) : Blamed g output e := ⟨code, scopes, hv, hf⟩

/-- Looking up an operand of a visited node. -/
theorem Resolves.outcome {a : NodeId} (h : Resolves g scopes s operand a)
    (hv : Visited g s.instrs output scopes a) :
    Outcome (operand a) s (fun v s' ↦ s' = s ∧ Lowered g s.instrs scopes a v)
      (Blamed g output) :=
  h.mono (fun _ _ hl ↦ hl) fun e he ↦ by
    obtain ⟨rfl, hdead⟩ := he
    exact hv.blamed (.unknownNode hdead)

/-! ## Single nodes -/

theorem instrs_push (s : State) (i : Instr) :
    ({ s with code := s.code.push i } : State).instrs = s.instrs ++ [i] := Array.toList_push

theorem writes_append (code : List Instr) (operation : Operation) (shape : Shape)
    (source : NodeId) :
    Writes (code ++ [⟨operation, shape, source⟩]) ⟨⟨code.length⟩, shape⟩ operation source := by
  simp [Writes]

/-- An instruction that a node needs before its own. -/
structure Prepares (id : NodeId) (shape : Shape) (i : Instr) : Prop where
  source_eq : i.source = id
  shape_eq : i.shape = shape
  not_param : ∀ index, i.operation ≠ .param index

/-- Emitting the instruction of a node after those that prepare it. -/
theorem outcome_emit_after (hs : Sound g output s) (ho : Opened g s.instrs scopes) {s₁ : State}
    {more : List Instr} {shape : Shape} (hcode : s₁.instrs = s.instrs ++ more)
    (hrest : s₁ = { s with code := s₁.code }) (hmore : ∀ i ∈ more, Prepares id shape i)
    {operation : Operation} (hparam : ∀ index, operation ≠ .param index)
    (ht₁ : WellTyped s₁.instrs) (ht : operation.Makes s₁.instrs shape)
    (hl : Lowered g (s₁.instrs ++ [⟨operation, shape, id⟩]) scopes id ⟨⟨s₁.code.size⟩, shape⟩)
    {err : CompileError → Prop} :
    Outcome (emit operation shape id) s₁ (Stands g output scopes id s) err := by
  refine ⟨fun v s' heq ↦ ?_, fun e heq ↦ by cases heq⟩
  cases heq
  have hcode' := instrs_push s₁ ⟨operation, shape, id⟩
  have htyped : WellTyped (s₁.instrs ++ [⟨operation, shape, id⟩]) := ht₁.snoc ht
  rw [hcode, List.append_assoc] at hcode' htyped hl
  have hmem {i : Instr} (hi : i ∈ more ++ [⟨operation, shape, id⟩]) :
      Prepares id shape i ∨ i = ⟨operation, shape, id⟩ :=
    (List.mem_append.1 hi).imp (hmore i) List.mem_singleton.1
  obtain ⟨hsound, honward⟩ : Sound g output { s₁ with code := s₁.code.push ⟨operation, shape, id⟩ } ∧
      Extends s { s₁ with code := s₁.code.push ⟨operation, shape, id⟩ } := hs.append ho hl
    (fun i hi ↦ by
      rcases hmem hi with hi | rfl
      · exact ⟨hi.source_eq, hi.shape_eq⟩
      · exact ⟨rfl, rfl⟩)
    (fun i hi index hop ↦ by
      rcases hmem hi with hi | rfl
      · exact absurd hop (hi.not_param index)
      · exact absurd hop (hparam index))
    htyped hcode' (by rw [hrest])
  exact ⟨hsound, honward, hcode' ▸ hl⟩

/-- Emitting the one instruction of a node. -/
theorem outcome_emit (hs : Sound g output s) (ho : Opened g s.instrs scopes) {operation : Operation}
    {shape : Shape} (hparam : ∀ index, operation ≠ .param index)
    (ht : operation.Makes s.instrs shape)
    (hl : Lowered g (s.instrs ++ [⟨operation, shape, id⟩]) scopes id ⟨⟨s.code.size⟩, shape⟩)
    {err : CompileError → Prop} :
    Outcome (emit operation shape id) s (Stands g output scopes id s) err :=
  outcome_emit_after hs ho (List.append_nil _).symm rfl (fun _ h ↦ by cases h) hparam hs.typed
    ht hl

theorem outcome_constant (hs : Sound g output s) (ho : Opened g s.instrs scopes) {c : Value}
    (hn : g.node? id = some (.constant c)) {err : CompileError → Prop} :
    Outcome (emit (.const c) c.shape id) s (Stands g output scopes id s) err :=
  outcome_emit hs ho (fun _ h ↦ by cases h) (.const c)
    (.constant hn rfl (writes_append ..))

theorem outcome_unary (hs : Sound g output s) (hv : Visited g s.instrs output scopes id)
    {op : UnaryOp} {a : NodeId} {x : Operand} (hn : g.node? id = some (.unary op (some a)))
    (ha : Lowered g s.instrs scopes a x) :
    Outcome (lowerUnary id op x) s (Stands g output scopes id s) (Blamed g output) := by
  unfold lowerUnary
  split
  next shape hshape =>
    exact outcome_emit hs hv.opened (fun _ h ↦ by cases h) (.unary (ha.shapeAt? hv.opened) hshape)
      (.unary hn (ha.mono (List.prefix_append ..)) hshape (writes_append ..))
  next hne => exact .throw (hv.blamed (.unsupportedUnary hn ha hne))

/-- Emitting an instruction that prepares the next one. -/
theorem outcome_emit_bind {operation : Operation} {shape : Shape} {source : NodeId} {α : Type}
    {f : Operand → Lower α} {ok : α → State → Prop} {err : CompileError → Prop}
    (h : Outcome (f ⟨⟨s.code.size⟩, shape⟩)
      { s with code := s.code.push ⟨operation, shape, source⟩ } ok err) :
    Outcome (emit operation shape source >>= f) s ok err := by
  refine .bind ⟨fun v s' heq ↦ ?_, fun e heq ↦ by cases heq⟩
  cases heq
  exact h

/-- The registers that a binary operator is to read, after at most one repetition has been emitted.
They hold values of one shape, of which the operator makes a result. -/
structure Widened (id : NodeId) (op : BinaryOp) (shape : Shape) (x y : Operand) (s : State)
    (r : Reg × Reg) (s₁ : State) : Prop where
  code : ∃ more, s₁.instrs = s.instrs ++ more ∧ ∀ i ∈ more, Prepares id shape i
  rest : s₁ = { s with code := s₁.code }
  typed : WellTyped s₁.instrs
  makes : (Operation.binary op r.1 r.2).Makes s₁.instrs shape
  left : Widens s₁.instrs id op shape x y r.1
  right : Widens s₁.instrs id op shape y x r.2

theorem prepares_splat (id : NodeId) (shape : Shape) (r : Reg) :
    ∀ i ∈ [(⟨.splat r, shape, id⟩ : Instr)], Prepares id shape i := by
  intro i hi
  rw [List.mem_singleton.1 hi]
  exact ⟨rfl, rfl, fun _ h ↦ by cases h⟩

theorem shapeAt?_writes_append (code : List Instr) (operation : Operation) (shape : Shape)
    (source : NodeId) :
    shapeAt? (code ++ [⟨operation, shape, source⟩]) ⟨code.length⟩ = some shape :=
  shapeAt?_of_getElem? (writes_append code operation shape source)

theorem outcome_widen {op : BinaryOp} {shape : Shape} {x y : Operand} (ht : WellTyped s.instrs)
    (hx : shapeAt? s.instrs x.reg = some x.shape) (hy : shapeAt? s.instrs y.reg = some y.shape)
    (hshape : op.shapeOf x.shape y.shape = .of shape) {err : CompileError → Prop} :
    Outcome (widen id op shape x y) s (Widened id op shape x y s) err := by
  unfold widen
  split
  next hc =>
    split
    next hfloat =>
      have hne : y.shape ≠ .float := fun h ↦ hc.2 (hfloat.trans h.symm)
      obtain rfl : y.shape = shape := by
        rw [hfloat, BinaryOp.shapeOf_float_left hc.1] at hshape
        exact ValueType.of.inj hshape
      have hcode := instrs_push s ⟨.splat x.reg, y.shape, id⟩
      refine outcome_emit_bind (.pure ⟨⟨_, hcode, prepares_splat _ _ _⟩, rfl, ?_, ?_, ?_, ?_⟩)
      · rw [hcode]
        exact ht.snoc (.splat (hfloat ▸ hx) _)
      · rw [hcode]
        exact .binary (shapeAt?_writes_append ..) (shapeAt?_append hy) (BinaryOp.shapeOf_self hc.1 _)
      · rw [Widens, if_pos ⟨hc.1, hfloat, hne⟩, hcode]
        exact writes_append ..
      · rw [Widens, if_neg fun h ↦ hne h.2.1]
    next hfloat =>
      have hyf : y.shape = .float := BinaryOp.eq_float_of_shapeOf hc.1 hshape hfloat hc.2
      obtain rfl : x.shape = shape := by
        rw [hyf, BinaryOp.shapeOf_float_right hc.1] at hshape
        exact ValueType.of.inj hshape
      have hcode := instrs_push s ⟨.splat y.reg, x.shape, id⟩
      refine outcome_emit_bind (.pure ⟨⟨_, hcode, prepares_splat _ _ _⟩, rfl, ?_, ?_, ?_, ?_⟩)
      · rw [hcode]
        exact ht.snoc (.splat (hyf ▸ hy) _)
      · rw [hcode]
        exact .binary (shapeAt?_append hx) (shapeAt?_writes_append ..) (BinaryOp.shapeOf_self hc.1 _)
      · rw [Widens, if_neg fun h ↦ hfloat h.2.1]
      · rw [Widens, if_pos ⟨hc.1, hyf, hfloat⟩, hcode]
        exact writes_append ..
  next hc =>
    have hsame : x.shape = y.shape := by
      by_cases hco : op.isComponentwise
      · exact Decidable.not_not.1 fun hne ↦ hc ⟨hco, hne⟩
      · exact BinaryOp.shape_eq_of_shapeOf hco hshape
    refine .pure ⟨⟨[], (List.append_nil _).symm, fun _ h ↦ by cases h⟩, rfl, ht, ?_, ?_, ?_⟩
    · exact .binary hx (hsame ▸ hy) (hsame ▸ hshape)
    · rw [Widens, if_neg fun h ↦ h.2.2 (hsame ▸ h.2.1)]
    · rw [Widens, if_neg fun h ↦ h.2.2 (hsame.trans h.2.1)]

theorem outcome_binary (hs : Sound g output s) (hv : Visited g s.instrs output scopes id)
    {op : BinaryOp} {a b : NodeId} {x y : Operand}
    (hn : g.node? id = some (.binary op (some a) (some b))) (ha : Lowered g s.instrs scopes a x)
    (hb : Lowered g s.instrs scopes b y) :
    Outcome (lowerBinary id op x y) s (Stands g output scopes id s) (Blamed g output) := by
  unfold lowerBinary
  split
  next shape hshape =>
    refine .seq (outcome_widen hs.typed (ha.shapeAt? hv.opened) (hb.shapeAt? hv.opened) hshape)
      fun r s₁ hw ↦ ?_
    obtain ⟨rx, ry⟩ := r
    obtain ⟨more, hcode, hmore⟩ := hw.code
    have hp : s.instrs <+: s₁.instrs ++ [⟨.binary op rx ry, shape, id⟩] := by
      rw [hcode, List.append_assoc]
      exact List.prefix_append ..
    exact outcome_emit_after hs hv.opened hcode hw.rest hmore (fun _ h ↦ by cases h) hw.typed hw.makes
      (.binary hn (ha.mono hp) (hb.mono hp) hshape (hw.left.mono (List.prefix_append ..))
        (hw.right.mono (List.prefix_append ..)) (writes_append ..))
  next hne => exact .throw (hv.blamed (.unsupportedBinary hn ha hb hne))

/-- Loading a parameter whose position is declared: all parameters of the position share a load. -/
theorem outcome_load {s₁ : State} (hs : Sound g output s₁) (ho : Opened g s₁.instrs scopes)
    (honward : Extends s s₁) {index : Nat} {shape : Shape}
    (hn : g.node? id = some (.parameter index (.of shape))) (hb : bound? scopes id = none)
    (hp : s₁.params[index]?.join = some shape) {err : CompileError → Prop} :
    Outcome (match s₁.loads.lookup index with
      | some v => return v
      | none => do
        let v ← emit (.param index) shape id
        modify fun s => { s with loads := (index, v) :: s.loads }
        return v) s₁ (Stands g output scopes id s) err := by
  split
  next v hv =>
    obtain ⟨⟨source, hi⟩, hv⟩ := hs.loads index v hv
    obtain rfl : shape = v.shape := Option.some.inj (hp.symm.trans hv)
    exact .pure ⟨hs, honward, .load hn hb hi⟩
  next =>
    refine outcome_emit_bind (.bind (.modify (.pure ?_)))
    have hcode := instrs_push s₁ ⟨.param index, shape, id⟩
    have hi : Writes (s₁.instrs ++ [⟨.param index, shape, id⟩]) ⟨⟨s₁.code.size⟩, shape⟩
        (.param index) id := writes_append ..
    have hl : Lowered g (s₁.instrs ++ [⟨.param index, shape, id⟩]) scopes id
        ⟨⟨s₁.code.size⟩, shape⟩ := .load hn hb hi
    obtain ⟨hsound, hmore⟩ := hs.append ho hl
      (fun i hi ↦ by rw [List.mem_singleton.1 hi]; exact ⟨rfl, rfl⟩)
      (fun i hi k hop ↦ by
        rw [List.mem_singleton.1 hi] at hop ⊢
        obtain rfl : index = k := Operation.param.inj hop
        exact hp)
      (hs.typed.snoc (.param index shape)) hcode rfl
    exact ⟨hsound.keepLoad (hcode ▸ hi) hp, honward.trans ⟨hmore.code, hmore.shared⟩, hcode ▸ hl⟩

theorem outcome_parameter (hs : Sound g output s) (hv : Visited g s.instrs output scopes id)
    {index : Nat} {declared : ValueType} (hn : g.node? id = some (.parameter index declared)) :
    Outcome (lowerParameter scopes id index declared) s (Stands g output scopes id s)
      (Blamed g output) := by
  unfold lowerParameter
  split
  next v hb => exact .pure ⟨hs, .refl s, .bound hn hb⟩
  next hb =>
    split
    next shape =>
      refine .bind (.get ?_)
      cases hp : s.params[index]?.join with
      | some expected =>
          simp only
          by_cases heq : expected = shape
          · subst heq
            rw [if_neg (not_not_intro rfl)]
            exact outcome_load hs hv.opened (.refl s) hn hb hp
          · rw [if_pos heq]
            have hd := hs.demanded index expected hp
            exact .bind (.throw (hv.blamed (.parameterConflict hn hb hd heq)))
      | none =>
          have hs₁ := hs.declare hp ⟨scopes, id, hv, hn, hb⟩
          have honward : Extends s { s with params := declareParam s.params index shape } :=
            ⟨List.prefix_refl _, fun _ h ↦ h⟩
          refine .bind (.set (outcome_load hs₁ hv.opened honward hn hb ?_))
          exact (declareParam_lookup ..).trans (if_pos rfl)
    next hne => exact .throw (hv.blamed (.unresolved hn hb fun s heq ↦ hne s heq))

/-! ## Operands -/

theorem outcome_wired (hv : Visited g s.instrs output scopes id) {n : Node} {port : Port} {e : Edge}
    (hn : g.node? id = some n) (hc : n.isComposite = false) (hp : n.port? port = some e)
    (hop : ∀ a ∈ n.operands, Resolves g scopes s operand a) :
    Outcome (wired id operand port e) s
      (fun v s' ↦ s' = s ∧ ∃ a, e = some a ∧ Lowered g s.instrs scopes a v) (Blamed g output) := by
  unfold wired
  split
  next a =>
    have ha : a ∈ n.operands :=
      Node.operands_of_not_composite hc ▸ Node.mem_edges_of_port? hp
    exact ((hop a ha).outcome (hv.operand hn ha)).imp fun v s' hl ↦ ⟨hl.1, a, rfl, hl.2⟩
  next => exact .throw (hv.blamed (.missingInput hn hc hp))

theorem outcome_lowerSlots (hv : Visited g s.instrs output scopes id) {slots : List Edge}
    (hn : g.node? id = some (.construct slots))
    (hop : ∀ a, some a ∈ slots → Resolves g scopes s operand a) (slot : Nat) {rest : List Edge}
    (hrest : ∀ (k : Nat) (e : Edge), rest[k]? = some e → slots[slot + k]? = some e) :
    Outcome (lowerSlots id operand slot rest) s
      (fun rs s' ↦ s' = s ∧ ∃ bs : List (NodeId × Reg), rest = bs.map (fun b ↦ some b.1) ∧
        rs = bs.map Prod.snd ∧ ∀ b ∈ bs, Lowered g s.instrs scopes b.1 ⟨b.2, .float⟩)
      (Blamed g output) := by
  induction rest generalizing slot with
  | nil =>
      refine .pure ⟨rfl, [], rfl, rfl, fun _ h ↦ ?_⟩
      cases h
  | cons e rest ih =>
      have hslot : slots[slot]? = some e := hrest 0 e rfl
      cases e with
      | none => exact .throw (hv.blamed (.missingSlot hn hslot))
      | some a =>
          have hmem : some a ∈ slots := List.mem_of_getElem? hslot
          have ha : a ∈ (Node.construct slots).operands :=
            List.mem_filterMap.2 ⟨some a, hmem, rfl⟩
          unfold lowerSlots
          refine .seq ((hop a hmem).outcome (hv.operand hn ha)) ?_
          rintro v s' ⟨rfl, hl⟩
          simp only
          split
          next hne => exact .bind (.throw (hv.blamed (.unsupportedSlot hn hslot hl hne)))
          next heq =>
            have hfloat : v.shape = .float := Decidable.not_not.1 heq
            have hrest' : ∀ (k : Nat) (e : Edge), rest[k]? = some e →
                slots[slot + 1 + k]? = some e := fun k e hk ↦ by
              rw [Nat.add_assoc, Nat.add_comm 1 k]
              exact hrest (k + 1) e hk
            refine .seq (ih _ hrest') ?_
            rintro rs s'' ⟨rfl, bs, rfl, rfl, hbs⟩
            refine .pure ⟨rfl, (a, v.reg) :: bs, rfl, rfl, fun b hb ↦ ?_⟩
            rcases List.mem_cons.1 hb with rfl | hb
            · exact hfloat ▸ hl
            · exact hbs b hb

theorem outcome_bindArguments (hv : Visited g s.instrs output scopes id) {n : Node}
    (hn : g.node? id = some n) (hop : ∀ a ∈ n.operands, Resolves g scopes s operand a) (index : Nat)
    {rest : List (NodeId × Edge)}
    (hrest : ∀ (k : Nat) (a : NodeId × Edge), rest[k]? = some a →
      n.arguments[index + k]? = some a) :
    Outcome (bindArguments id operand index rest) s
      (fun bound s' ↦ s' = s ∧ ∃ bindings : List Binding, rest = bindings.map Binding.argument ∧
        bound = bindings.map Binding.bound ∧
        ∀ b ∈ bindings, Lowered g s.instrs scopes b.source b.value)
      (Blamed g output) := by
  induction rest generalizing index with
  | nil =>
      refine .pure ⟨rfl, [], rfl, rfl, fun _ h ↦ ?_⟩
      cases h
  | cons p rest ih =>
      obtain ⟨p, e⟩ := p
      have harg : n.arguments[index]? = some (p, e) := hrest 0 (p, e) rfl
      cases e with
      | none => exact .throw (hv.blamed (.missingArgument hn harg))
      | some a =>
          have hmem := List.mem_of_getElem? harg
          have ha := Node.mem_operands_of_mem_arguments hmem rfl
          unfold bindArguments
          refine .seq ((hop a ha).outcome (hv.operand hn ha)) ?_
          rintro v s' ⟨rfl, hl⟩
          have hrest' : ∀ (k : Nat) (b : NodeId × Edge), rest[k]? = some b →
              n.arguments[index + 1 + k]? = some b := fun k b hk ↦ by
            rw [Nat.add_assoc, Nat.add_comm 1 k]
            exact hrest (k + 1) b hk
          refine .seq (ih _ hrest') ?_
          rintro bound s'' ⟨rfl, bindings, rfl, rfl, hbs⟩
          refine .pure ⟨rfl, ⟨p, a, v⟩ :: bindings, rfl, rfl, fun b hb ↦ ?_⟩
          rcases List.mem_cons.1 hb with rfl | hb
          · exact hl
          · exact hbs b hb

end FieldGraph.Compile
