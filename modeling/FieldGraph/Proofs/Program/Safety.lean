import FieldGraph.Proofs.Program.Execution

/-!
# Compiled programs run safely

Evaluation is total: a register not written yet, a missing argument and an operand of the wrong shape
all have a stand-in.  A checked run takes no register that has not been written, and if it is told to,
no stand-in either; it stops instead.  It never has to, for a compiled program, because the code is
well typed: after any part of it the register file has the shapes of that part.
-/

namespace FieldGraph

/-! ## Checked evaluation -/

/-- Whether a run may go on with NaN in place of a value that it does not have. -/
inductive Fallback where
  | allowed
  | refused

/-- A value that was found, or else the stand-in for it. -/
def Fallback.use {α : Type} (mode : Fallback) (found : Option α) (standIn : α) : Option α :=
  match mode with
  | allowed => some (found.getD standIn)
  | refused => found

namespace Program

/-- The contents of a written register as a scalar. -/
def readScalar? (mode : Fallback) (file : Array Value) (r : Reg) : Option Scalar := do
  let v ← file[r.index]?
  mode.use v.toFloat? Scalar.nan

/-- The result of an instruction, if every register it reads has been written. -/
def eval? (mode : Fallback) (args : List Value) (file : Array Value) (i : Instr) : Option Value :=
  match i.operation with
  | .param k => mode.use args[k]? (Value.nan i.shape)
  | .const v => some v
  | .splat r => do
    let x ← readScalar? mode file r
    return Value.splat x i.shape
  | .unary op r => do
    let x ← file[r.index]?
    mode.use (op.applied? x) (op.apply x)
  | .binary op a b => do
    let x ← file[a.index]?
    let y ← file[b.index]?
    mode.use (op.applied? x y) (op.apply x y)
  | .construct rs => do
    let xs ← rs.mapM (readScalar? mode file)
    mode.use (Value.ofList? xs) (Value.nan i.shape)

/-- Write the register of an instruction. -/
def write? (mode : Fallback) (args : List Value) (file : Array Value) (i : Instr) :
    Option (Array Value) := do
  let v ← eval? mode args file i
  return file.push v

/-- A run that never reads a register before it is written, with the result that it leaves. -/
def runChecked? (mode : Fallback) (p : Program) (file : Array Value) (args : List Value) :
    Option (Array Value × Value) := do
  let file ← p.instrs.foldlM (write? mode args) (file.shrink 0)
  let v ← file[p.output.index]?
  return (file, v)

end Program

/-! ## What a checked step computes -/

theorem Fallback.eq_of_use {α : Type} {mode : Fallback} {found : Option α} {standIn x : α}
    (h : mode.use found standIn = some x) : found.getD standIn = x := by
  cases mode with
  | allowed => exact Option.some.inj h
  | refused =>
      change found = some x at h
      rw [h, Option.getD_some]

namespace Program

variable {mode : Fallback} {args : List Value} {file : Array Value} {i : Instr} {r : Reg}

theorem read_eq_of_getElem? {v : Value} (h : file[r.index]? = some v) : read file r = v := by
  rw [read, Array.getD_eq_getD_getElem?, h, Option.getD_some]

theorem readScalar_eq_of_readScalar? {x : Scalar} (h : readScalar? mode file r = some x) :
    readScalar file r = x := by
  obtain ⟨v, hv, hx⟩ := Option.bind_eq_some_iff.1 h
  rw [readScalar, read_eq_of_getElem? hv]
  exact Fallback.eq_of_use hx

theorem map_readScalar_eq {rs : List Reg} {xs : List Scalar}
    (h : rs.mapM (readScalar? mode file) = some xs) : rs.map (readScalar file) = xs := by
  induction rs generalizing xs with
  | nil => exact Option.some.inj h
  | cons r rs ih =>
      rw [List.mapM_cons] at h
      obtain ⟨x, hx, h⟩ := Option.bind_eq_some_iff.1 h
      obtain ⟨ys, hys, h⟩ := Option.bind_eq_some_iff.1 h
      rw [List.map_cons, readScalar_eq_of_readScalar? hx, ih hys]
      exact Option.some.inj h

/-- Whatever a checked step computes is what evaluation computes. -/
theorem eval_eq_of_eval? {v : Value} (h : eval? mode args file i = some v) :
    eval args file i = v := by
  unfold eval? at h
  unfold eval
  cases ho : i.operation with
  | param k =>
      rw [ho] at h
      exact Fallback.eq_of_use h
  | const c =>
      rw [ho] at h
      exact Option.some.inj h
  | splat r =>
      rw [ho] at h
      obtain ⟨x, hx, h⟩ := Option.bind_eq_some_iff.1 h
      simp only [readScalar_eq_of_readScalar? hx]
      exact Option.some.inj h
  | unary op r =>
      rw [ho] at h
      obtain ⟨x, hx, h⟩ := Option.bind_eq_some_iff.1 h
      have hv := Fallback.eq_of_use h
      rw [UnaryOp.getD_applied?] at hv
      simp only [read_eq_of_getElem? hx, hv]
  | binary op a b =>
      rw [ho] at h
      obtain ⟨x, hx, h⟩ := Option.bind_eq_some_iff.1 h
      obtain ⟨y, hy, h⟩ := Option.bind_eq_some_iff.1 h
      have hv := Fallback.eq_of_use h
      rw [BinaryOp.getD_applied?] at hv
      simp only [read_eq_of_getElem? hx, read_eq_of_getElem? hy, hv]
  | construct rs =>
      rw [ho] at h
      obtain ⟨xs, hxs, h⟩ := Option.bind_eq_some_iff.1 h
      simp only [map_readScalar_eq hxs]
      exact Fallback.eq_of_use h

/-! ## Registers within range -/

theorem exists_getElem?_of_lt (h : r.index < file.size) : ∃ v, file[r.index]? = some v :=
  ⟨_, Array.getElem?_eq_getElem h⟩

theorem exists_mapM {α β : Type} {f : α → Option β} {xs : List α}
    (h : ∀ x ∈ xs, ∃ y, f x = some y) : ∃ ys, xs.mapM f = some ys ∧ ys.length = xs.length := by
  induction xs with
  | nil => exact ⟨[], rfl, rfl⟩
  | cons x xs ih =>
      obtain ⟨y, hy⟩ := h x List.mem_cons_self
      obtain ⟨ys, hys, hl⟩ := ih fun z hz ↦ h z (List.mem_cons_of_mem x hz)
      refine ⟨y :: ys, ?_, congrArg (· + 1) hl⟩
      rw [List.mapM_cons, hy, hys]
      rfl

/-- Nothing but a register out of range stops a step that may fall back. -/
theorem exists_eval?_allowed (h : ∀ r ∈ i.operation.reads, r.index < file.size) :
    ∃ v, eval? .allowed args file i = some v := by
  have scalar {r : Reg} (hr : r.index < file.size) : ∃ x, readScalar? .allowed file r = some x := by
    obtain ⟨v, hv⟩ := exists_getElem?_of_lt hr
    exact ⟨_, Option.bind_eq_some_iff.2 ⟨v, hv, rfl⟩⟩
  unfold eval?
  cases ho : i.operation with
  | param | const => exact ⟨_, rfl⟩
  | splat r =>
      obtain ⟨x, hx⟩ := scalar (h r (by simp [ho, Operation.reads]))
      exact ⟨_, Option.bind_eq_some_iff.2 ⟨x, hx, rfl⟩⟩
  | unary op r =>
      obtain ⟨x, hx⟩ := exists_getElem?_of_lt (h r (by simp [ho, Operation.reads]))
      exact ⟨_, Option.bind_eq_some_iff.2 ⟨x, hx, rfl⟩⟩
  | binary op a b =>
      obtain ⟨x, hx⟩ := exists_getElem?_of_lt (h a (by simp [ho, Operation.reads]))
      obtain ⟨y, hy⟩ := exists_getElem?_of_lt (h b (by simp [ho, Operation.reads]))
      exact ⟨_, Option.bind_eq_some_iff.2 ⟨x, hx, Option.bind_eq_some_iff.2 ⟨y, hy, rfl⟩⟩⟩
  | construct rs =>
      obtain ⟨xs, hxs, -⟩ := exists_mapM fun r hr ↦ scalar (h r (by simpa [ho, Operation.reads]))
      exact ⟨_, Option.bind_eq_some_iff.2 ⟨xs, hxs, rfl⟩⟩

/-! ## Values of the right shapes -/

/-- A register file holds values of the shapes of a code. -/
def Fills (code : List Instr) (file : Array Value) : Prop :=
  file.toList.map Value.shape = code.map Instr.shape

variable {code : List Instr} {s : Shape}

theorem Fills.exists_value (h : Fills code file) (hr : shapeAt? code r = some s) :
    ∃ v, file[r.index]? = some v ∧ v.shape = s := by
  rw [shapeAt?, ← List.getElem?_map, ← h, List.getElem?_map] at hr
  obtain ⟨v, hv, hs⟩ := Option.map_eq_some_iff.1 hr
  exact ⟨v, by rwa [Array.getElem?_toList] at hv, hs⟩

theorem Fills.exists_scalar (h : Fills code file) (hr : shapeAt? code r = some .float) :
    ∃ x, readScalar? .refused file r = some x := by
  obtain ⟨v, hv, hs⟩ := h.exists_value hr
  obtain ⟨x, rfl⟩ := Value.eq_float_of_shape hs
  exact ⟨x, Option.bind_eq_some_iff.2 ⟨_, hv, rfl⟩⟩

theorem Fills.push (h : Fills code file) {v : Value} (hv : v.shape = i.shape) :
    Fills (code ++ [i]) (file.push v) := by
  rw [Fills, Array.toList_push, List.map_append, List.map_append, h]
  simp [hv]

/-- A typed instruction needs no fallback, and makes a value of its shape. -/
theorem exists_eval?_refused (hf : Fills code file) (hi : i.operation.Makes code i.shape)
    (hargs : ∀ k, i.operation = .param k → ∃ x, args[k]? = some x ∧ x.shape = i.shape) :
    ∃ v, eval? .refused args file i = some v ∧ v.shape = i.shape := by
  obtain ⟨operation, shape, source⟩ := i
  cases hi with
  | param k => exact hargs k rfl
  | const c => exact ⟨c, rfl, rfl⟩
  | splat hr =>
      obtain ⟨x, hx⟩ := hf.exists_scalar hr
      exact ⟨_, Option.bind_eq_some_iff.2 ⟨x, hx, rfl⟩, Value.shape_splat x shape⟩
  | unary hr hs =>
      obtain ⟨x, hx, rfl⟩ := hf.exists_value hr
      exact ⟨_, Option.bind_eq_some_iff.2 ⟨x, hx, UnaryOp.applied?_eq hs⟩, UnaryOp.shape_apply hs⟩
  | @binary op a b t _ ha hb hs =>
      obtain ⟨x, hx, hxt⟩ := hf.exists_value ha
      obtain ⟨y, hy, hyt⟩ := hf.exists_value hb
      -- A scalar that had to be repeated was repeated by an instruction of its own.
      have hxy : x.shape = y.shape := hxt.trans hyt.symm
      have hs' : op.shapeOf x.shape y.shape = .of shape := by
        rw [hxt, hyt]
        exact hs
      refine ⟨op.apply x y, ?_, BinaryOp.shape_apply hxy hs'⟩
      exact Option.bind_eq_some_iff.2
        ⟨x, hx, Option.bind_eq_some_iff.2 ⟨y, hy, BinaryOp.applied?_eq hxy hs'⟩⟩
  | construct hr hs =>
      obtain ⟨xs, hxs, hl⟩ := exists_mapM fun r hmem ↦ hf.exists_scalar (hr r hmem)
      obtain ⟨v, hv, hshape⟩ := Value.ofList?_eq_some_of_length
        (hl.trans (Shape.ofDim?_eq_some_iff.1 hs) : xs.length = shape.dim)
      exact ⟨v, Option.bind_eq_some_iff.2 ⟨xs, hxs, hv⟩, hshape⟩

/-! ## Runs -/

/-- A checked run leaves the registers of a run, as far as it goes. -/
theorem foldlM_write?_snoc {v : Value}
    (h : code.foldlM (write? mode args) #[] = some (Compile.registers args code))
    (hv : eval? mode args (Compile.registers args code) i = some v) :
    (code ++ [i]).foldlM (write? mode args) #[] = some (Compile.registers args (code ++ [i])) := by
  rw [List.foldlM_append, h, Compile.registers_append, eval_eq_of_eval? hv]
  simp [write?, hv]

theorem foldlM_write?_allowed (h : WellTyped code) :
    code.foldlM (write? .allowed args) #[] = some (Compile.registers args code) := by
  induction h with
  | nil => rfl
  | @snoc code i _ hi ih =>
      have hreads : ∀ r ∈ i.operation.reads, r.index < (Compile.registers args code).size :=
        fun r hr ↦ (Compile.size_registers args code).symm ▸ hi.index_lt hr
      obtain ⟨v, hv⟩ := exists_eval?_allowed hreads
      exact foldlM_write?_snoc ih hv

theorem foldlM_write?_refused (h : WellTyped code) (hsup : Compile.Supplies args code) :
    code.foldlM (write? .refused args) #[] = some (Compile.registers args code) ∧
      Fills code (Compile.registers args code) := by
  induction h with
  | nil => exact ⟨rfl, rfl⟩
  | @snoc code i _ hi ih =>
      obtain ⟨hrun, hf⟩ := ih fun j hj ↦ hsup j (List.mem_append_left _ hj)
      obtain ⟨v, hv, hs⟩ := exists_eval?_refused hf hi (hsup i (by simp))
      refine ⟨foldlM_write?_snoc hrun hv, ?_⟩
      rw [Compile.registers_append, eval_eq_of_eval? hv]
      exact hf.push hs

theorem shrink_zero (file : Array Value) : file.shrink 0 = #[] := by simp

/-- What a register file held before a run does not matter. -/
theorem runInto_eq (p : Program) (file : Array Value) (args : List Value) :
    p.runInto file args = Compile.registers args p.instrs := by
  rw [runInto, shrink_zero, Compile.registers]

/-- A checked run that goes through leaves what a run does. -/
theorem runChecked?_eq {p : Program} {v : Value}
    (h : p.instrs.foldlM (write? mode args) #[] = some (Compile.registers args p.instrs))
    (hv : (Compile.registers args p.instrs)[p.output.index]? = some v) :
    p.runChecked? mode file args =
      some (p.runInto file args, p.resultIn (p.runInto file args)) := by
  rw [runChecked?, shrink_zero, h, runInto_eq, resultIn, hv]
  simp [hv]

end Program

namespace Graph

/-- Compiled programs are safe.  Every instruction reads registers written before, and the result is
the register of an instruction that has its shape; so a run stays within its registers whatever its
arguments are.  If they are accepted, nothing that the run needs is missing or of the wrong shape,
and every register ends up with a value of its instruction's shape. -/
theorem safe_of_compile {g : Graph} {output : NodeId} {expected : Option ValueType} {p : Program}
    (h : g.compile output expected = .ok p) :
    (∀ (k : Nat) (i : Instr), p.instrs[k]? = some i → ∀ r ∈ i.operation.reads, r.index < k) ∧
      (∃ i, p.instrs[p.output.index]? = some i ∧ i.shape = p.result) ∧
      (∀ args file, p.runChecked? .allowed file args =
        some (p.runInto file args, p.resultIn (p.runInto file args))) ∧
      ∀ args, p.checkArgs args = .ok () → ∀ file,
        p.runChecked? .refused file args =
            some (p.runInto file args, p.resultIn (p.runInto file args)) ∧
          (∀ (k : Nat) (i : Instr), p.instrs[k]? = some i →
            ∃ v, (p.runInto file args)[k]? = some v ∧ v.shape = i.shape) ∧
          ∃ v, (p.runInto file args)[p.output.index]? = some v ∧ p.call args = .ok v ∧
            v.shape = p.result := by
  obtain ⟨s, w, source, -, hs, hl, rfl⟩ := Compile.exists_lowered_of_compile h
  have hout : shapeAt? s.instrs w.reg = some w.shape := hl.shapeAt? .nil
  refine ⟨hs.typed.reads_lt, Option.map_eq_some_iff.1 hout, fun args file ↦ ?_,
    fun args ha file ↦ ?_⟩
  · have hlt : w.reg.index < (Compile.registers args s.instrs).size :=
      (Compile.size_registers args s.instrs).symm ▸ index_lt_of_shapeAt? hout
    obtain ⟨v, hv⟩ := Program.exists_getElem?_of_lt hlt
    exact Program.runChecked?_eq (Program.foldlM_write?_allowed hs.typed) hv
  · have hsup : Compile.Supplies args s.instrs := fun i hi index hop ↦
      Program.exists_shape_of_checkArgs ha (hs.params i hi index hop)
    obtain ⟨hrun, hf⟩ := Program.foldlM_write?_refused hs.typed hsup
    obtain ⟨v, hv, hshape⟩ := hf.exists_value hout
    refine ⟨Program.runChecked?_eq hrun hv, fun k i hi ↦ ?_, v, ?_, ?_, hshape⟩
    · rw [Program.runInto_eq]
      exact hf.exists_value (r := ⟨k⟩) (shapeAt?_of_getElem? hi)
    · rwa [Program.runInto_eq]
    · rw [Program.call_eq ha (index_lt_of_shapeAt? hout), Program.read_eq_of_getElem? hv]

/-- The length of an argument that is scaled by a constant, in both components of a vector. -/
def scaledLength : List Action :=
  [.parameter 0 (.of .float3), .constant (.float 2), .binary .mul ⟨0⟩ ⟨1⟩, .unary .length ⟨2⟩,
    .construct [⟨3⟩, ⟨3⟩], .output ⟨4⟩]

/-- The constant is repeated before the product. -/
def scaledProgram : Program :=
  ⟨[⟨.param 0, .float3, ⟨0⟩⟩, ⟨.const (.float 2), .float, ⟨1⟩⟩, ⟨.splat ⟨1⟩, .float3, ⟨2⟩⟩,
    ⟨.binary .mul ⟨0⟩ ⟨2⟩, .float3, ⟨2⟩⟩, ⟨.unary .length ⟨3⟩, .float, ⟨3⟩⟩,
    ⟨.construct [⟨4⟩, ⟨4⟩], .float2, ⟨4⟩⟩], ⟨5⟩, .float2, [some .float3]⟩

theorem safe_scaledProgram :
    (after scaledLength).compile ⟨5⟩ none = .ok scaledProgram ∧
      (∀ args file, scaledProgram.runChecked? .allowed file args =
        some (scaledProgram.runInto file args,
          scaledProgram.resultIn (scaledProgram.runInto file args))) ∧
      scaledProgram.checkArgs [.float3 ⟨1, 2, 3⟩] = .ok () ∧
      ∃ v, (scaledProgram.runInto #[.float 7] [.float3 ⟨1, 2, 3⟩])[5]? = some v ∧
        scaledProgram.call [.float3 ⟨1, 2, 3⟩] = .ok v ∧ v.shape = .float2 := by
  have h : (after scaledLength).compile ⟨5⟩ none = .ok scaledProgram := by decide +kernel
  obtain ⟨-, -, hrun, hcall⟩ := safe_of_compile h
  have ha : scaledProgram.checkArgs [.float3 ⟨1, 2, 3⟩] = .ok () := rfl
  exact ⟨h, hrun, ha, (hcall [.float3 ⟨1, 2, 3⟩] ha #[.float 7]).2.2⟩

end Graph

end FieldGraph
