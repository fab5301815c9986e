import FieldGraph.Proofs.Program.Nesting

/-!
# Compiling on record

The compiler once more, writing down each node for which it has no value yet: the scopes that are
open and the instructions that are emitted for the node.  What is written down is never read, so
that leaving it out gives the compiler itself; and unlike the state it is there after a failure,
too.
-/

namespace FieldGraph.Compile

/-- A node that is lowered, the scopes it is lowered in, and the instructions emitted for it.  A
composite is written down before it is expanded, and has none of its own. -/
structure Event where
  scopes : List Scope
  node : NodeId
  emitted : List Instr

abbrev History := List Event

/-- Lowering that keeps a history. -/
abbrev Recorded := StateT State (ExceptT CompileError (StateM History))

/-- The composites that are being expanded, innermost first. -/
def stack (scopes : List Scope) : List NodeId := scopes.map Scope.composite

/-- Where a node is lowered: outside of all composites, or in the expansion of one. -/
def Event.stack (e : Event) : List NodeId := Compile.stack e.scopes

namespace Recorded

variable {α : Type}

/-- A step that is not written down. -/
def silent (x : Lower α) : Recorded α := fun s h ↦ (x s, h)

def note (e : Event) : Recorded Unit := fun s h ↦ (.ok ((), s), h ++ [e])

/-- A step that lowers a node, written down with the instructions it appends. -/
def emitting (scopes : List Scope) (id : NodeId) (x : Lower α) : Recorded α := fun s h ↦
  match x s with
  | .ok (a, s') => (.ok (a, s'), h ++ [⟨scopes, id, s'.instrs.drop s.instrs.length⟩])
  | .error e => (.error e, h)

end Recorded

/-- How the body of a composite is lowered on record. -/
abbrev Recorder := NodeId → Option (List Scope → NodeId → Recorded Operand)

/-- Lower the body of a composite. -/
def recordExpand (g : Graph) (recorder : Recorder) (scopes : List Scope) (own : NodeMap Operand)
    (n : Node) (id : NodeId) : Recorded Operand := do
  let some body := n.body?.join | throw (.missingBody id)
  match recorder id with
  | some recordBody =>
    let bindings ← .silent (bindArguments id (operandIn g scopes own) 0 n.arguments)
    recordBody (⟨id, bindings⟩ :: scopes) body
  | none => throw (.cycle id)

/-- Lower one node whose operands are lowered already. -/
def recordNode (g : Graph) (recorder : Recorder) (scopes : List Scope) (own : NodeMap Operand)
    (n : Node) (id : NodeId) : Recorded Operand :=
  if n.isComposite then do
    .note ⟨scopes, id, []⟩
    recordExpand g recorder scopes own n id
  else .emitting scopes id
    (lowerNode scopes (operandIn g scopes own) (fun id ↦ throw (.missingBody id)) id n)

/-- Lower a live node unless it is lowered already. -/
def recordNext (g : Graph) (recorder : Recorder) (scopes : List Scope) (own : NodeMap Operand)
    (id : NodeId) : Recorded (NodeMap Operand) := do
  match ← .silent (find? g scopes own id), g.node? id with
  | none, some n =>
    let v ← recordNode g recorder scopes own n id
    .silent (keep g scopes own id v)
  | _, _ => return own

/-- Lower a root and all it reads in the innermost scope. -/
def recordScope (g : Graph) (available : List NodeId) (scopes : List Scope) (root : NodeId) :
    Recorded Operand := do
  let recorder : Recorder := fun id ↦
    if _ : id ∈ available then some (recordScope g (available.erase id)) else none
  let w := g.walk Node.operands true [root]
  let own ← w.finished.foldlM (recordNext g recorder scopes) NodeMap.empty
  match w.cycle with
  | some (id :: _) => throw (.cycle id)
  | _ => .silent (operandIn g scopes own root)
termination_by available.length
decreasing_by
  rename_i h
  exact length_erase_lt h

/-! ## Leaving out the record -/

/-- Without its history the first computation is the second one. -/
def Erases {α : Type} (x : Recorded α) (y : Lower α) : Prop := ∀ s h, (x s h).1 = y s

section Erases

variable {g : Graph} {scopes : List Scope} {own : NodeMap Operand} {id : NodeId} {n : Node}
  {α β : Type}

theorem erases_silent (x : Lower α) : Erases (.silent x) x := fun _ _ ↦ rfl

theorem erases_emitting (x : Lower α) : Erases (.emitting scopes id x) x := fun s h ↦ by
  unfold Recorded.emitting
  split
  next heq => exact heq.symm
  next heq => exact heq.symm

theorem erases_pure (a : α) : Erases (pure a) (pure a) := fun _ _ ↦ rfl

theorem erases_throw (e : CompileError) : Erases (throw e : Recorded α) (throw e) := fun _ _ ↦ rfl

theorem recorded_bind (x : Recorded α) (f : α → Recorded β) (s : State) (h : History) :
    (x >>= f) s h = match x s h with
      | (.ok (a, s'), h') => f a s' h'
      | (.error e, h') => (.error e, h') := by
  change ExceptT.bindCont (fun p : α × State ↦ f p.1 p.2) (x s h).1 (x s h).2 = _
  generalize x s h = r
  rcases r with ⟨_ | ⟨a, s'⟩, h'⟩ <;> rfl

theorem Erases.bind {x : Recorded α} {y : Lower α} {f : α → Recorded β} {f' : α → Lower β}
    (hx : Erases x y) (hf : ∀ a, Erases (f a) (f' a)) : Erases (x >>= f) (y >>= f') := by
  intro s h
  have hbind : (y >>= f') s = (y s >>= fun p ↦ f' p.1 p.2) := rfl
  rw [recorded_bind, hbind, ← hx s h]
  rcases x s h with ⟨_ | ⟨a, s'⟩, h'⟩
  · rfl
  · exact hf a s' h'

theorem Erases.foldlM {f : β → α → Recorded β} {f' : β → α → Lower β}
    (hf : ∀ b a, Erases (f b a) (f' b a)) (l : List α) (b : β) :
    Erases (l.foldlM f b) (l.foldlM f' b) := by
  induction l generalizing b with
  | nil => exact erases_pure b
  | cons a l ih =>
      rw [List.foldlM_cons, List.foldlM_cons]
      exact (hf b a).bind fun b' ↦ ih b'

/-- Noting a node changes nothing but the history. -/
theorem erases_note {e : Event} {x : Recorded α} {y : Lower α} (hx : Erases x y) :
    Erases (do Recorded.note e; x) y := fun s h ↦ by
  rw [recorded_bind]
  exact hx s _

variable {recorder : Recorder} {opener : Opener}

/-- The bodies of the same composites are lowered, in the same way. -/
def Recorder.Erases (recorder : Recorder) (opener : Opener) : Prop :=
  ∀ id, Option.Rel (fun record lower ↦ ∀ scopes root,
    Compile.Erases (record scopes root) (lower scopes root)) (recorder id) (opener id)

theorem erases_recordExpand (ho : recorder.Erases opener) (scopes : List Scope)
    (own : NodeMap Operand) (n : Node) (id : NodeId) :
    Erases (recordExpand g recorder scopes own n id) (expand g opener scopes own n id) := by
  unfold recordExpand expand
  cases n.body?.join with
  | none => exact erases_throw _
  | some body =>
      have hid := ho id
      simp only
      generalize recorder id = r at hid ⊢
      generalize opener id = o at hid ⊢
      cases hid with
      | none => exact erases_throw _
      | some hlower => exact (erases_silent _).bind fun bindings ↦ hlower _ body

theorem erases_recordNode (ho : recorder.Erases opener) (scopes : List Scope)
    (own : NodeMap Operand) (n : Node) (id : NodeId) :
    Erases (recordNode g recorder scopes own n id)
      (lowerNode scopes (operandIn g scopes own) (expand g opener scopes own n) id n) := by
  unfold recordNode
  split
  next hc =>
    have hexpand : lowerNode scopes (operandIn g scopes own) (expand g opener scopes own n) id n =
        expand g opener scopes own n id := by cases n <;> first | rfl | cases hc
    rw [hexpand]
    exact erases_note (erases_recordExpand ho scopes own n id)
  next hc =>
    rw [lowerNode_congr fun h ↦ absurd h hc]
    exact erases_emitting _

theorem erases_recordNext (ho : recorder.Erases opener) (scopes : List Scope)
    (own : NodeMap Operand) (id : NodeId) :
    Erases (recordNext g recorder scopes own id) (lowerNext g opener scopes own id) := by
  unfold recordNext lowerNext
  refine (erases_silent _).bind fun found ↦ ?_
  cases found with
  | some v => exact erases_pure own
  | none =>
      cases g.node? id with
      | none => exact erases_pure own
      | some n => exact (erases_recordNode ho scopes own n id).bind fun v ↦ erases_silent _

/-- How the bodies of composites are lowered on record, given those that may be opened. -/
def recording (g : Graph) (available : List NodeId) : Recorder := fun id ↦
  if id ∈ available then some (recordScope g (available.erase id)) else none

/-- Lower a root and all it reads in the innermost scope, given how the bodies of composites are
lowered. -/
def recordWith (g : Graph) (recorder : Recorder) (scopes : List Scope) (root : NodeId) :
    Recorded Operand := do
  let own ← (g.walk Node.operands true [root]).finished.foldlM (recordNext g recorder scopes)
    NodeMap.empty
  match (g.walk Node.operands true [root]).cycle with
  | some (c :: _) => throw (.cycle c)
  | _ => .silent (operandIn g scopes own root)

theorem recordScope_eq (g : Graph) (available : List NodeId) (scopes : List Scope)
    (root : NodeId) :
    recordScope g available scopes root = recordWith g (recording g available) scopes root := by
  rw [recordScope]
  rfl

theorem erases_recording {available : List NodeId}
    (h : ∀ id ∈ available, ∀ scopes root, Erases (recordScope g (available.erase id) scopes root)
      (lowerScope g (available.erase id) scopes root)) :
    (recording g available).Erases (opening g available) := fun id ↦ by
  unfold recording opening
  by_cases hid : id ∈ available
  · rw [if_pos hid, if_pos hid]
    exact .some (h id hid)
  · rw [if_neg hid, if_neg hid]
    exact .none

/-- Without its history, lowering a scope on record is lowering it. -/
theorem erases_recordScope (g : Graph) (available : List NodeId) (scopes : List Scope)
    (root : NodeId) :
    Erases (recordScope g available scopes root) (lowerScope g available scopes root) := by
  induction available using erase_induction generalizing scopes root with
  | step available ih =>
      have ho := erases_recording ih
      rw [recordScope_eq, lowerScope_eq]
      refine (Erases.foldlM (erases_recordNext ho scopes) _ _).bind fun own ↦ ?_
      cases (g.walk Node.operands true [root]).cycle with
      | none => exact erases_silent _
      | some c =>
          cases c with
          | nil => exact erases_silent _
          | cons c rest => exact erases_throw _

end Erases

end FieldGraph.Compile

/-- What compiling an output writes down, until it ends or fails. -/
def FieldGraph.Graph.history (g : Graph) (output : NodeId) : Compile.History :=
  (Compile.recordScope g g.composites [] output Compile.State.init []).2
