import FieldGraph.Proofs.Graph.Evaluation
import FieldGraph.Proofs.Graph.Steps
import FieldGraph.Proofs.Program.Expansion

/-!
# Running compiled programs

Instructions read registers written before, so that after a run every register holds the result of
its instruction in the final register file.  Hence an operand that stands for a node holds the value
of the node, where placeholders have the values that the scopes bind to them.
-/

namespace FieldGraph

namespace Compile

variable {g : Graph} {args : List Value} {code : List Instr} {file file' : Array Value}
  {scopes : List Scope} {id : NodeId} {v : Operand}

/-! ## Register files -/

/-- The registers that a code leaves. -/
def registers (args : List Value) (code : List Instr) : Array Value :=
  code.foldl (fun file i ↦ file.push (Program.eval args file i)) #[]

theorem registers_append (args : List Value) (code : List Instr) (i : Instr) :
    registers args (code ++ [i]) =
      (registers args code).push (Program.eval args (registers args code) i) :=
  List.foldl_append

theorem size_registers (args : List Value) (code : List Instr) :
    (registers args code).size = code.length := by
  induction code using List.reverseRecOn with
  | nil => rfl
  | append_singleton code i ih =>
      rw [registers_append, Array.size_push, ih, List.length_append, List.length_singleton]

theorem read_push_of_lt {r : Reg} (h : r.index < file.size) (x : Value) :
    Program.read (file.push x) r = Program.read file r := by
  rw [Program.read, Program.read, Array.getD_eq_getD_getElem?, Array.getD_eq_getD_getElem?,
    Array.getElem?_push_lt h, Array.getElem?_eq_getElem h]

/-- An instruction depends on nothing but the registers that it reads. -/
theorem eval_congr {i : Instr}
    (h : ∀ r ∈ i.operation.reads, Program.read file r = Program.read file' r) :
    Program.eval args file i = Program.eval args file' i := by
  unfold Program.eval
  cases ho : i.operation with
  | param | const => rfl
  | splat r | unary op r =>
      have hr := h r (by simp [ho, Operation.reads])
      simp [Program.readScalar, hr]
  | binary op a b =>
      have ha := h a (by simp [ho, Operation.reads])
      have hb := h b (by simp [ho, Operation.reads])
      simp [ha, hb]
  | construct rs =>
      have hrs : rs.map (Program.readScalar file) = rs.map (Program.readScalar file') :=
        List.map_congr_left fun r hr ↦ by
          rw [Program.readScalar, Program.readScalar, h r (by simpa [ho, Operation.reads])]
      simp [hrs]

/-- Every register holds the result of its instruction. -/
def Settles (args : List Value) (code : List Instr) (file : Array Value) : Prop :=
  ∀ (k : Nat) (i : Instr), code[k]? = some i → Program.read file ⟨k⟩ = Program.eval args file i

/-- A run settles every register if instructions read registers written before. -/
theorem settles_registers (h : ∀ (k : Nat) (i : Instr), code[k]? = some i →
    ∀ r ∈ i.operation.reads, r.index < k) : Settles args code (registers args code) := by
  induction code using List.reverseRecOn with
  | nil => exact fun k i hi ↦ by simp at hi
  | append_singleton code i ih =>
      intro k j hj
      have keeps {r : Reg} (hr : r.index < code.length) :
          Program.read (registers args (code ++ [i])) r = Program.read (registers args code) r := by
        rw [registers_append]
        exact read_push_of_lt (by rwa [size_registers]) _
      have hlt := h k j hj
      have hk : k < code.length + 1 := by
        simpa using (List.getElem?_eq_some_iff.1 hj).1
      have hstable : Program.eval args (registers args (code ++ [i])) j =
          Program.eval args (registers args code) j :=
        eval_congr fun r hr ↦ keeps (by have := hlt r hr; omega)
      rw [hstable]
      rcases Nat.lt_succ_iff_lt_or_eq.1 hk with hk | rfl
      · rw [List.getElem?_append_left hk] at hj
        rw [keeps hk]
        refine ih (fun k' i' hi' ↦ h k' i' ?_) k j hj
        rwa [List.getElem?_append_left (List.getElem?_eq_some_iff.1 hi').1]
      · obtain rfl : i = j := by simpa using hj
        rw [registers_append, Program.read, ← size_registers args code]
        simp

/-! ## Operands -/

/-- An argument of a composite with the value that a register holds for it. -/
def Binding.given (file : Array Value) (b : Binding) : Graph.Given :=
  ⟨b.placeholder, b.source, Program.read file b.value.reg⟩

/-- The loads of a code find arguments of their shapes. -/
def Supplies (args : List Value) (code : List Instr) : Prop :=
  ∀ i ∈ code, ∀ index, i.operation = .param index → ∃ x, args[index]? = some x ∧ x.shape = i.shape

/-- The values of the placeholders that scopes bind. -/
def valuesIn (file : Array Value) (scopes : List Scope) : List (NodeId × Value) :=
  scopes.flatMap fun s ↦ s.bindings.map fun b ↦ (b.1, Program.read file b.2.reg)

theorem lookup_valuesIn (file : Array Value) (scopes : List Scope) (id : NodeId) :
    (valuesIn file scopes).lookup id =
      (bound? scopes id).map fun w ↦ Program.read file w.reg := by
  induction scopes with
  | nil => rfl
  | cons s scopes ih =>
      rw [valuesIn, List.flatMap_cons, List.lookup_append,
        lookup_map_snd fun w : Operand ↦ Program.read file w.reg, bound?_cons]
      rw [valuesIn] at ih
      rw [ih]
      cases s.bindings.lookup id <;> rfl

/-- An operand holds a value of its shape. -/
def Fits (file : Array Value) (v : Operand) : Prop := (Program.read file v.reg).shape = v.shape

theorem Settles.read_eq {operation : Operation} (hf : Settles args code file)
    (hi : Writes code v operation id) :
    Program.read file v.reg = Program.eval args file ⟨operation, v.shape, id⟩ :=
  hf v.reg.index _ hi

/-- The register that a binary operator reads holds the operand, repeated if it has to be. -/
theorem Settles.read_widens (hf : Settles args code file) {op : BinaryOp} {shape : Shape}
    {x y : Operand} {r : Reg} (h : Widens code id op shape x y r) (hx : Fits file x)
    (hy : Fits file y) (hs : op.isComponentwise → x.shape = .float → shape = y.shape) :
    Program.read file r = if op.isComponentwise
      then (Program.read file x.reg).widenTo (Program.read file y.reg).shape
      else Program.read file x.reg := by
  rw [Fits] at hx hy
  unfold Widens at h
  split at h
  next hc =>
    obtain ⟨hc, hxf, -⟩ := hc
    obtain ⟨a, ha⟩ := Value.eq_float_of_shape (hx.trans hxf)
    have hr : Program.read file r = Value.splat (Program.readScalar file x.reg) shape :=
      hf.read_eq h
    rw [hr, if_pos hc, Program.readScalar, ha, hy, hs hc hxf]
    rfl
  next hc =>
    rw [h]
    split
    next hco =>
      refine (Value.widenTo_of_ne ?_).symm
      rw [hx, hy]
      by_cases hxf : x.shape = .float
      · exact .inr (Decidable.not_not.1 fun hyf ↦ hc ⟨hco, hxf, hyf⟩)
      · exact .inl hxf
    · rfl

/-- An operand holds a value of its shape, and that is the value of a node. -/
structure Holds (g : Graph) (args : List Value) (file : Array Value) (scopes : List Scope)
    (id : NodeId) (v : Operand) : Prop where
  fits : Fits file v
  value : g.Evaluates args (valuesIn file scopes) id (Program.read file v.reg)

namespace Settles

theorem holds_load (hf : Settles args code file) (ha : Supplies args code) {index : Nat}
    {source : NodeId} (hn : g.node? id = some (.parameter index (.of v.shape)))
    (hb : bound? scopes id = none) (hi : Writes code v (.param index) source) :
    Holds g args file scopes id v := by
  obtain ⟨x, hx, hshape⟩ := ha _ (List.mem_of_getElem? hi) index rfl
  have hr : Program.read file v.reg = x := by
    rw [hf.read_eq hi]
    simp only [Program.eval, hx, Option.getD_some]
  refine ⟨(congrArg Value.shape hr).trans hshape, .argument hn ?_ (hr ▸ hx)⟩
  rw [lookup_valuesIn, hb]
  rfl

theorem holds_unary (hf : Settles args code file) {op : UnaryOp} {a : NodeId} {x : Operand}
    (hn : g.node? id = some (.unary op (some a))) (ha : Holds g args file scopes a x)
    (hs : op.shapeOf x.shape = .of v.shape) (hi : Writes code v (.unary op x.reg) id) :
    Holds g args file scopes id v := by
  have hr : Program.read file v.reg = op.apply (Program.read file x.reg) := hf.read_eq hi
  have hfit : (Program.read file x.reg).shape = x.shape := ha.fits
  constructor
  · rw [Fits, hr]
    exact UnaryOp.shape_apply (hfit ▸ hs)
  · rw [hr]
    exact .unary hn ha.value

theorem holds_binary (hf : Settles args code file) {op : BinaryOp} {a b : NodeId} {x y : Operand}
    {rx ry : Reg} (hn : g.node? id = some (.binary op (some a) (some b)))
    (ha : Holds g args file scopes a x) (hb : Holds g args file scopes b y)
    (hs : op.shapeOf x.shape y.shape = .of v.shape) (hx : Widens code id op v.shape x y rx)
    (hy : Widens code id op v.shape y x ry) (hi : Writes code v (.binary op rx ry) id) :
    Holds g args file scopes id v := by
  have hrx := hf.read_widens hx ha.fits hb.fits fun hc hxf ↦ by
    rw [hxf, BinaryOp.shapeOf_float_left hc] at hs
    exact (ValueType.of.inj hs).symm
  have hry := hf.read_widens hy hb.fits ha.fits fun hc hyf ↦ by
    rw [hyf, BinaryOp.shapeOf_float_right hc] at hs
    exact (ValueType.of.inj hs).symm
  have hr : Program.read file v.reg =
      op.applyWide (Program.read file x.reg) (Program.read file y.reg) := by
    have hr : Program.read file v.reg = op.apply (Program.read file rx) (Program.read file ry) :=
      hf.read_eq hi
    rw [hr, hrx, hry, BinaryOp.applyWide]
    split <;> rfl
  have hfx : (Program.read file x.reg).shape = x.shape := ha.fits
  have hfy : (Program.read file y.reg).shape = y.shape := hb.fits
  constructor
  · rw [Fits, hr]
    refine BinaryOp.shape_applyWide ?_
    rw [hfx, hfy, hs]
  · rw [hr]
    exact .binary hn ha.value hb.value

theorem holds_construct (hf : Settles args code file) {slots : List (NodeId × Reg)}
    (hn : g.node? id = some (.construct (slots.map fun b ↦ some b.1)))
    (ha : ∀ b ∈ slots, Holds g args file scopes b.1 ⟨b.2, .float⟩)
    (hs : Shape.ofDim? slots.length = some v.shape)
    (hi : Writes code v (.construct (slots.map Prod.snd)) id) :
    Holds g args file scopes id v := by
  have scalar {b : NodeId × Reg} (hb : b ∈ slots) :
      Program.read file b.2 = .float (Program.readScalar file b.2) := by
    obtain ⟨x, hx⟩ := Value.eq_float_of_shape (ha b hb).fits
    rw [Program.readScalar, hx]
    rfl
  obtain ⟨x, hx, hshape⟩ : ∃ x,
      Value.ofList? ((slots.map Prod.snd).map (Program.readScalar file)) = some x ∧
        x.shape = v.shape :=
    Value.ofList?_eq_some_of_length (by
      rw [List.length_map, List.length_map]
      exact Shape.ofDim?_eq_some_iff.1 hs)
  have hr : Program.read file v.reg = x := by
    rw [hf.read_eq hi]
    simp only [Program.eval, hx, Option.getD_some]
  have hn' : g.node? id = some (.construct
      ((slots.map fun b ↦ (b.1, Program.readScalar file b.2)).map fun c ↦ some c.1)) := by
    rw [hn, List.map_map]
    rfl
  refine ⟨(congrArg Value.shape hr).trans hshape, hr ▸ .construct hn' (fun c hc ↦ ?_) ?_⟩
  · obtain ⟨b, hb, rfl⟩ := List.mem_map.1 hc
    exact scalar hb ▸ (ha b hb).value
  · rw [← hx, List.map_map, List.map_map]
    rfl

end Settles

/-- A composite holds what its body holds where its placeholders are bound. -/
theorem Holds.composite {body : NodeId} {n : Node} {bindings : List Binding}
    (hn : g.node? id = some n) (hbody : n.body?.join = some body)
    (hargs : n.arguments = bindings.map Binding.argument)
    (ha : ∀ b ∈ bindings, Holds g args file scopes b.source b.value)
    (hv : Holds g args file (⟨id, bindings.map Binding.bound⟩ :: scopes) body v) :
    Holds g args file scopes id v := by
  have hargs' : n.arguments = (bindings.map (Binding.given file)).map Graph.Given.argument := by
    rw [hargs, List.map_map]
    rfl
  refine ⟨hv.fits, .composite hn hbody hargs' (fun c hc ↦ ?_) ?_⟩
  · obtain ⟨b, hb, rfl⟩ := List.mem_map.1 hc
    exact (ha b hb).value
  · have hval := hv.value
    rw [valuesIn, List.flatMap_cons, List.map_map] at hval
    rw [List.map_map]
    exact hval

/-- After a run, an operand that stands for a node holds the value of the node. -/
theorem Lowered.holds (h : Lowered g code scopes id v) (hf : Settles args code file)
    (ha : Supplies args code) (hb : ∀ j w, bound? scopes j = some w → Fits file w) :
    Holds g args file scopes id v := by
  induction h with
  | constant hn hs hi =>
      constructor
      · rw [Fits, hf.read_eq hi, hs]
        rfl
      · rw [hf.read_eq hi]
        exact .constant hn
  | bound hn hbound =>
      refine ⟨hb _ _ hbound, .bound hn ?_⟩
      rw [lookup_valuesIn, hbound]
      rfl
  | load hn hbound hi => exact hf.holds_load ha hn hbound hi
  | output hn _ ih => exact ⟨(ih hb).fits, .output hn (ih hb).value⟩
  | unary hn _ hs hi ih => exact hf.holds_unary hn (ih hb) hs hi
  | binary hn _ _ hs hx hy hi ihx ihy => exact hf.holds_binary hn (ihx hb) (ihy hb) hs hx hy hi
  | construct hn _ hs hi ih => exact hf.holds_construct hn (fun b hmem ↦ ih b hmem hb) hs hi
  | composite hn hbody hargs _ _ iha ihv =>
      refine .composite hn hbody hargs (fun b hmem ↦ iha b hmem hb) (ihv fun _ _ ↦ ?_)
      exact bound?_cons_induction (motive := fun _ w ↦ Fits file w)
        (fun b hmem ↦ (iha b hmem hb).fits) hb

end Compile

/-! ## Calls -/

namespace Program

theorem exists_shape_of_mismatch?_eq_none {index : Nat} {params : List (Option Shape)}
    {args : List Value} (hl : args.length = params.length)
    (h : mismatch? index params args = none) {k : Nat} {s : Shape}
    (hk : params[k]?.join = some s) : ∃ x, args[k]? = some x ∧ x.shape = s := by
  induction params generalizing index args k with
  | nil => cases hk
  | cons param params ih =>
      cases args with
      | nil => cases hl
      | cons x args =>
          have hl' : args.length = params.length := Nat.succ.inj hl
          cases param with
          | none =>
              cases k with
              | zero => cases hk
              | succ k => exact ih hl' h hk
          | some t =>
              rw [mismatch?] at h
              split at h
              next hx =>
                cases k with
                | zero =>
                    cases hk
                    exact ⟨x, rfl, hx⟩
                | succ k => exact ih hl' h hk
              · cases h

/-- Arguments that are accepted have the shapes that the parameters ask for. -/
theorem exists_shape_of_checkArgs {p : Program} {args : List Value} (h : p.checkArgs args = .ok ())
    {k : Nat} {s : Shape} (hk : p.params[k]?.join = some s) :
    ∃ x, args[k]? = some x ∧ x.shape = s := by
  unfold checkArgs at h
  split at h
  · cases h
  next hl =>
    split at h
    · cases h
    next hm => exact exists_shape_of_mismatch?_eq_none (Decidable.not_not.1 hl) hm hk

/-- A run leaves what the register of the output holds. -/
theorem run_eq {p : Program} (args : List Value) (hout : p.output.index < p.instrs.length) :
    p.run args = read (Compile.registers args p.instrs) p.output := by
  have hlt : p.output.index < (Compile.registers args p.instrs).size := by
    rwa [Compile.size_registers]
  rw [read, Array.getD_eq_getD_getElem?, Array.getElem?_eq_getElem hlt]
  change ((Compile.registers args p.instrs)[p.output.index]?).getD _ = _
  rw [Array.getElem?_eq_getElem hlt]
  rfl

theorem call_of_checkArgs {p : Program} {args : List Value} (h : p.checkArgs args = .ok ()) :
    p.call args = .ok (p.run args) := by
  rw [call, h]
  rfl

theorem call_eq {p : Program} {args : List Value} (h : p.checkArgs args = .ok ())
    (hout : p.output.index < p.instrs.length) :
    p.call args = .ok (read (Compile.registers args p.instrs) p.output) := by
  rw [call_of_checkArgs h, run_eq args hout]

end Program

/-- A run leaves the value of the output, which has the shape of the result, if every parameter finds
an argument of its shape.  It does not matter whether there are more arguments. -/
theorem Compile.evaluates_run {g : Graph} {output : NodeId} {expected : Option ValueType}
    {p : Program} (h : g.compile output expected = .ok p) {args : List Value}
    (ha : ∀ (index : Nat) s, p.params[index]?.join = some s →
      ∃ x, args[index]? = some x ∧ x.shape = s) :
    g.Evaluates args [] output (p.run args) ∧ (p.run args).shape = p.result := by
  obtain ⟨s, v, source, -, hs, hl, rfl⟩ := Compile.exists_lowered_of_compile h
  have hsup : Compile.Supplies args s.instrs := fun i hi index hop ↦
    ha index i.shape (hs.params i hi index hop)
  have hholds := hl.holds (Compile.settles_registers hs.reads_lt) hsup fun _ _ hb ↦ by cases hb
  rw [Program.run_eq args (hl.index_lt .nil)]
  exact ⟨hholds.value, hholds.fits⟩

namespace Graph

/-- A compiled program computes the value of its output: on arguments that it accepts a call returns
that value, which is the only one. -/
theorem call_of_compile {g : Graph} {output : NodeId} {expected : Option ValueType} {p : Program}
    (h : g.compile output expected = .ok p) {args : List Value} (ha : p.checkArgs args = .ok ()) :
    ∃ v, p.call args = .ok v ∧ g.Evaluates args [] output v ∧
      ∀ w, g.Evaluates args [] output w → w = v := by
  obtain ⟨s, v, source, -, hs, hl, rfl⟩ := Compile.exists_lowered_of_compile h
  have hsup : Compile.Supplies args s.instrs := fun i hi index hop ↦
    Program.exists_shape_of_checkArgs ha (hs.params i hi index hop)
  have hval := (hl.holds (Compile.settles_registers hs.reads_lt) hsup fun _ _ hb ↦ by
    cases hb).value
  exact ⟨_, Program.call_eq ha (hl.index_lt .nil), hval, fun w hw ↦ hw.eq hval⟩

/-- A composite applied to a parameter and its negation.  Its body applies another composite to the
second argument, and the body of that one reads the first. -/
def nestedComposites : List Action :=
  [.parameter 0 (.of .float), .compositeBinary, .compositeUnary, .binary .sub ⟨4⟩ ⟨1⟩, .output ⟨6⟩,
    .setBody ⟨5⟩ ⟨7⟩, .setEdge ⟨5⟩ .input (some ⟨2⟩), .output ⟨5⟩, .setBody ⟨3⟩ ⟨8⟩,
    .unary .negate ⟨0⟩, .setEdge ⟨3⟩ .lhs (some ⟨0⟩), .setEdge ⟨3⟩ .rhs (some ⟨9⟩), .output ⟨3⟩]

/-- One load serves the parameter and the placeholder that is bound to it. -/
def nestedProgram : Program :=
  ⟨[⟨.param 0, .float, ⟨0⟩⟩, ⟨.unary .negate ⟨0⟩, .float, ⟨9⟩⟩,
    ⟨.binary .sub ⟨1⟩ ⟨0⟩, .float, ⟨6⟩⟩], ⟨2⟩, .float, [some .float]⟩

theorem call_nestedProgram :
    ∃ v, nestedProgram.call [.float 3] = .ok v ∧
      (after nestedComposites).Evaluates [.float 3] [] ⟨10⟩ v ∧
      ∀ w, (after nestedComposites).Evaluates [.float 3] [] ⟨10⟩ w → w = v := by
  have h : (after nestedComposites).compile ⟨10⟩ none = .ok nestedProgram := by decide +kernel
  exact call_of_compile h rfl

end Graph

end FieldGraph
