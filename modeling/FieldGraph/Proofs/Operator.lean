import FieldGraph.Operator

/-!
# Typing rules and applications

An operator applied to operands that its typing rule accepts gives a value of the shape the rule
says.  A componentwise operator repeats a scalar operand over the components of the other one.
-/

namespace FieldGraph

namespace Value

/-- A scalar repeated over the components of a shape; a vector stays as it is. -/
def widenTo : Value → Shape → Value
  | float x, s => splat x s
  | v, _ => v

theorem eq_float_of_shape {v : Value} (h : v.shape = .float) : ∃ x, v = float x := by
  cases v <;> first | exact ⟨_, rfl⟩ | cases h

theorem widenTo_of_ne {v : Value} {s : Shape} (h : v.shape ≠ .float ∨ s = .float) :
    v.widenTo s = v := by
  cases v with
  | float x =>
      obtain rfl := h.resolve_left fun h ↦ h rfl
      rfl
  | float2 | float3 | float4 => rfl

theorem ofList?_eq_some_of_length {xs : List Scalar} {s : Shape} (h : xs.length = s.dim) :
    ∃ v, ofList? xs = some v ∧ v.shape = s := by
  match s, xs, h with
  | .float, [x], _ => exact ⟨_, rfl, rfl⟩
  | .float2, [x, y], _ => exact ⟨_, rfl, rfl⟩
  | .float3, [x, y, z], _ => exact ⟨_, rfl, rfl⟩
  | .float4, [x, y, z, w], _ => exact ⟨_, rfl, rfl⟩

end Value

theorem ValueType.shape?_eq_some_iff {t : ValueType} {s : Shape} :
    t.shape? = some s ↔ t = .of s := by cases t <;> simp [shape?]

namespace UnaryOp

theorem shape_apply {op : UnaryOp} {v : Value} {s : Shape} (h : op.shapeOf v.shape = .of s) :
    (op.apply v).shape = s := by
  cases op <;> cases v <;>
    first
      | exact ValueType.of.inj h
      | simp [shapeOf, component?, Value.shape, Shape.isVector, Shape.dim] at h

/-- Apply an operator to a value of which it can make something. -/
def applied? (op : UnaryOp) (v : Value) : Option Value :=
  match op, v with
  | length, v => some (.float v.length)
  | normalize, .float _ => none
  | normalize, v => some v.direction
  | op, v =>
    match op.scalar? with
    | some f => some (v.map f)
    | none => (op.component?.bind v.component?).map .float

/-- Whatever can be made of a value is what applying the operator gives. -/
theorem getD_applied? (op : UnaryOp) (v : Value) : (op.applied? v).getD (op.apply v) = op.apply v := by
  cases op <;> cases v <;> rfl

/-- What the typing rule accepts can be applied. -/
theorem applied?_eq {op : UnaryOp} {v : Value} {s : Shape} (h : op.shapeOf v.shape = .of s) :
    op.applied? v = some (op.apply v) := by
  cases op <;> cases v <;>
    first
      | rfl
      | simp [shapeOf, component?, Value.shape, Shape.isVector, Shape.dim] at h

/-- A settled result has a settled operand. -/
theorem resultType_eq_of_iff {op : UnaryOp} {t : ValueType} {s : Shape} :
    op.resultType t = .of s ↔ ∃ a, t = .of a ∧ op.shapeOf a = .of s := by
  cases t <;> simp [resultType]

/-- Operands have shapes that fit the operator, or the result is invalid. -/
theorem shapeOf_eq_invalid {op : UnaryOp} {a : Shape} (h : ∀ s, op.shapeOf a ≠ .of s) :
    op.shapeOf a = .invalid := by
  cases op <;> cases a <;> first | rfl | exact absurd rfl (h _)

end UnaryOp

namespace BinaryOp

/-- Apply an operator to two operands, the scalar one of a componentwise operator repeated over the
components of the other. -/
def applyWide (op : BinaryOp) (x y : Value) : Value :=
  if op.isComponentwise then op.apply (x.widenTo y.shape) (y.widenTo x.shape) else op.apply x y

theorem shapeOf_of_componentwise {op : BinaryOp} (h : op.isComponentwise) (a b : Shape) :
    op.shapeOf a b =
      if a = .float then .of b else if b = .float ∨ a = b then .of a else .invalid := by
  cases op <;> first | rfl | cases h

theorem shapeOf_float_left {op : BinaryOp} (h : op.isComponentwise) (b : Shape) :
    op.shapeOf .float b = .of b := by rw [shapeOf_of_componentwise h, if_pos rfl]

theorem shapeOf_float_right {op : BinaryOp} (h : op.isComponentwise) (a : Shape) :
    op.shapeOf a .float = .of a := by
  rw [shapeOf_of_componentwise h]
  split
  next ha => rw [ha]
  next => rw [if_pos (.inl rfl)]

/-- Operands of unlike shapes are accepted only if one of them is a scalar. -/
theorem eq_float_of_shapeOf {op : BinaryOp} {a b s : Shape} (hc : op.isComponentwise)
    (h : op.shapeOf a b = .of s) (ha : a ≠ .float) (hab : a ≠ b) : b = .float := by
  rw [shapeOf_of_componentwise hc, if_neg ha] at h
  by_cases hb : b = .float
  · exact hb
  · rw [if_neg (not_or.2 ⟨hb, hab⟩)] at h
    cases h

theorem shape_applyWide {op : BinaryOp} {x y : Value} {s : Shape}
    (h : op.shapeOf x.shape y.shape = .of s) : (op.applyWide x y).shape = s := by
  cases op <;> cases x <;> cases y <;> first | exact ValueType.of.inj h | cases h

/-- Operands of one shape are applied as they are. -/
theorem shape_apply {op : BinaryOp} {x y : Value} {s : Shape} (hxy : x.shape = y.shape)
    (h : op.shapeOf x.shape y.shape = .of s) : (op.apply x y).shape = s := by
  cases op <;> cases x <;> cases y <;> first | exact ValueType.of.inj h | (cases hxy; done) | cases h

/-- Products take operands of one shape only. -/
theorem shape_eq_of_shapeOf {op : BinaryOp} {a b s : Shape} (hc : ¬ op.isComponentwise)
    (h : op.shapeOf a b = .of s) : a = b := by
  cases op with
  | dot | cross => cases a <;> cases b <;> first | rfl | cases h
  | _ => exact absurd rfl hc

/-- A componentwise operator takes two operands of one shape to that shape. -/
theorem shapeOf_self {op : BinaryOp} (hc : op.isComponentwise) (a : Shape) :
    op.shapeOf a a = .of a := by
  rw [shapeOf_of_componentwise hc]
  split
  · rfl
  · rw [if_pos (.inr rfl)]

/-- The product of two values of one shape. -/
def dotProduct? : Value → Value → Option Scalar
  | .float a, .float b => some (a * b)
  | .float2 a, .float2 b => some (a.dot b)
  | .float3 a, .float3 b => some (a.dot b)
  | .float4 a, .float4 b => some (a.dot b)
  | _, _ => none

/-- Apply an operator to values of which it can make something. -/
def applied? (op : BinaryOp) (a b : Value) : Option Value :=
  match op, a, b with
  | dot, a, b => (dotProduct? a b).map .float
  | cross, .float3 u, .float3 v => some (.float3 (u.cross v))
  | cross, _, _ => none
  | op, a, b => op.scalar?.bind fun f => a.zipWith? f b

/-- Whatever can be made of two values is what applying the operator gives. -/
theorem getD_applied? (op : BinaryOp) (a b : Value) :
    (op.applied? a b).getD (op.apply a b) = op.apply a b := by
  cases op <;> cases a <;> cases b <;> rfl

/-- What the typing rule accepts can be applied, if the operands are of one shape. -/
theorem applied?_eq {op : BinaryOp} {a b : Value} {s : Shape} (hab : a.shape = b.shape)
    (h : op.shapeOf a.shape b.shape = .of s) : op.applied? a b = some (op.apply a b) := by
  cases op <;> cases a <;> cases b <;> first | rfl | (cases hab; done) | cases h

theorem resultType_eq_of_iff {op : BinaryOp} {t u : ValueType} {s : Shape} :
    op.resultType t u = .of s ↔ ∃ a b, t = .of a ∧ u = .of b ∧ op.shapeOf a b = .of s := by
  cases t <;> cases u <;> simp [resultType]

/-- Operands have shapes that fit the operator, or the result is invalid. -/
theorem shapeOf_eq_invalid {op : BinaryOp} {a b : Shape} (h : ∀ s, op.shapeOf a b ≠ .of s) :
    op.shapeOf a b = .invalid := by
  cases op <;> cases a <;> cases b <;> first | rfl | exact absurd rfl (h _)

end BinaryOp

/-- A vector is settled if it has two to four slots and each is a scalar. -/
theorem constructType_eq_of_iff {ts : List ValueType} {s : Shape} :
    constructType ts = .of s ↔
      2 ≤ ts.length ∧ Shape.ofDim? ts.length = some s ∧ ∀ t ∈ ts, t = .of .float := by
  unfold constructType
  split
  next hlt => exact ⟨fun h ↦ (by cases h), fun h ↦ absurd h.1 (by omega)⟩
  next hlt =>
    have hle : 2 ≤ ts.length := by omega
    split
    next hd => simp [hd]
    next d hd =>
      rw [hd]
      split
      next hany =>
        refine ⟨fun h ↦ (by cases h), fun ⟨_, _, hall⟩ ↦ ?_⟩
        obtain ⟨t, ht, hopen⟩ := List.any_eq_true.1 hany
        rw [hall t ht] at hopen
        cases hopen
      next =>
        split
        next hall => simpa [hle] using fun _ ↦ by simpa using hall
        next hall =>
          refine ⟨fun h ↦ (by cases h), fun ⟨_, _, hfloat⟩ ↦ absurd ?_ hall⟩
          exact List.all_eq_true.2 fun t ht ↦ by simpa using hfloat t ht

end FieldGraph
