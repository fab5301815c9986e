import FieldGraph.Program.Basic

/-!
# Typed code

An instruction is typed by the shapes of the registers it reads.  A code is well typed if each of its
instructions is typed in the code before it, so that what an instruction reads has been written, and
has a shape that its operation takes.
-/

namespace FieldGraph

/-- The registers that an instruction reads. -/
def Operation.reads : Operation → List Reg
  | .param _ | .const _ => []
  | .splat r | .unary _ r => [r]
  | .binary _ a b => [a, b]
  | .construct rs => rs

/-- The shape of what a code leaves in a register. -/
def shapeAt? (code : List Instr) (r : Reg) : Option Shape := code[r.index]?.map Instr.shape

/-- An operation that comes after a code makes a value of a shape.  The operands of a binary operator
are of one shape here, because a scalar has been repeated where that was needed. -/
inductive Operation.Makes (code : List Instr) : Operation → Shape → Prop
  | param (index : Nat) (s : Shape) : Makes code (.param index) s
  | const (v : Value) : Makes code (.const v) v.shape
  | splat {r : Reg} (hr : shapeAt? code r = some .float) (s : Shape) : Makes code (.splat r) s
  | unary {op : UnaryOp} {r : Reg} {a s : Shape} (hr : shapeAt? code r = some a)
      (hs : op.shapeOf a = .of s) : Makes code (.unary op r) s
  | binary {op : BinaryOp} {a b : Reg} {t s : Shape} (ha : shapeAt? code a = some t)
      (hb : shapeAt? code b = some t) (hs : op.shapeOf t t = .of s) : Makes code (.binary op a b) s
  | construct {rs : List Reg} {s : Shape} (hr : ∀ r ∈ rs, shapeAt? code r = some .float)
      (hs : Shape.ofDim? rs.length = some s) : Makes code (.construct rs) s

/-- Every instruction makes a value of its shape from what the instructions before it leave. -/
inductive WellTyped : List Instr → Prop
  | nil : WellTyped []
  | snoc {code : List Instr} {i : Instr} (h : WellTyped code)
      (hi : i.operation.Makes code i.shape) : WellTyped (code ++ [i])

variable {code more : List Instr} {r : Reg} {s : Shape}

theorem index_lt_of_shapeAt? (h : shapeAt? code r = some s) : r.index < code.length := by
  obtain ⟨i, hi, -⟩ := Option.map_eq_some_iff.1 h
  exact (List.getElem?_eq_some_iff.1 hi).1

theorem shapeAt?_append (h : shapeAt? code r = some s) : shapeAt? (code ++ more) r = some s := by
  rw [shapeAt?, List.getElem?_append_left (index_lt_of_shapeAt? h)]
  exact h

theorem shapeAt?_of_getElem? {i : Instr} (h : code[r.index]? = some i) :
    shapeAt? code r = some i.shape := congrArg (Option.map Instr.shape) h

namespace Operation.Makes

variable {operation : Operation}

/-- A typed operation reads registers of the code before it. -/
theorem index_lt (h : operation.Makes code s) (hr : r ∈ operation.reads) :
    r.index < code.length := by
  cases h with
  | param | const => cases hr
  | splat ha | unary ha => exact List.mem_singleton.1 hr ▸ index_lt_of_shapeAt? ha
  | binary ha hb =>
      rcases List.mem_cons.1 hr with rfl | hr
      · exact index_lt_of_shapeAt? ha
      · exact List.mem_singleton.1 hr ▸ index_lt_of_shapeAt? hb
  | construct ha => exact index_lt_of_shapeAt? (ha r hr)

end Operation.Makes

/-- The instructions of a well-typed code read registers written before. -/
theorem WellTyped.reads_lt (h : WellTyped code) (k : Nat) (i : Instr) (hi : code[k]? = some i) :
    ∀ r ∈ i.operation.reads, r.index < k := by
  induction h generalizing k i with
  | nil => cases hi
  | @snoc code j _ hj ih =>
      rw [List.getElem?_append] at hi
      split at hi
      · exact ih k i hi
      next hk =>
        obtain ⟨hlt, rfl⟩ := List.getElem?_eq_some_iff.1 hi
        intro r hr
        have := hj.index_lt (by simpa using hr)
        omega

end FieldGraph
