import FieldGraph.Proofs.Graph.Entries
import FieldGraph.Proofs.Node

/-!
# Retyping

Bringing types up to date changes the types of nodes and the types that placeholders declare, and
nothing else: the outline of every node and its consumers stay.  Whatever holds of a graph because
of its wiring survives a propagation.
-/

namespace FieldGraph

/-- An entry without its types. -/
def Entry.outline (e : Entry) : Node × List NodeId := (e.node.outline, e.dependents)

namespace Graph

/-- The second graph has the wiring of the first. -/
structure Retyped (g g' : Graph) : Prop where
  capacity_eq : g'.capacity = g.capacity
  size_eq : g'.size = g.size
  outline_eq : ∀ id, (g'.entry? id).map Entry.outline = (g.entry? id).map Entry.outline

namespace Retyped

theorem refl (g : Graph) : Retyped g g := ⟨rfl, rfl, fun _ ↦ rfl⟩

theorem symm {g g' : Graph} (h : Retyped g g') : Retyped g' g :=
  ⟨h.capacity_eq.symm, h.size_eq.symm, fun id ↦ (h.outline_eq id).symm⟩

theorem trans {g g' g'' : Graph} (h : Retyped g g') (h' : Retyped g' g'') : Retyped g g'' :=
  ⟨h'.capacity_eq.trans h.capacity_eq, h'.size_eq.trans h.size_eq,
    fun id ↦ (h'.outline_eq id).trans (h.outline_eq id)⟩

variable {g g' : Graph} (h : Retyped g g')
include h

theorem entry {id : NodeId} {e' : Entry} (he : g'.entry? id = some e') :
    ∃ e, g.entry? id = some e ∧ e'.node.outline = e.node.outline ∧
      e'.dependents = e.dependents := by
  have ho := h.outline_eq id
  rw [he] at ho
  obtain ⟨e, he, heq⟩ := Option.map_eq_some_iff.1 ho.symm
  exact ⟨e, he, (congrArg Prod.fst heq).symm, (congrArg Prod.snd heq).symm⟩

theorem contains_eq (id : NodeId) : g'.contains id = g.contains id := by
  have ho := congrArg Option.isSome (h.outline_eq id)
  simpa [Graph.contains_eq] using ho

theorem ids_eq : g'.ids = g.ids := ids_congr h.capacity_eq h.contains_eq

theorem node? {id : NodeId} {n' : Node} (hn : g'.node? id = some n') :
    ∃ n, g.node? id = some n ∧ n'.outline = n.outline := by
  obtain ⟨e', he', rfl⟩ := node?_eq_some_iff.1 hn
  obtain ⟨e, he, ho, -⟩ := h.entry he'
  exact ⟨e.node, node?_of_entry he, ho⟩

end Retyped

/-! ## Every step of a propagation retypes -/

variable {g : Graph}

theorem retyped_setType (g : Graph) (id : NodeId) (t : ValueType) : Retyped g (g.setType id t) := by
  refine ⟨capacity_modifyEntry .., rfl, fun j ↦ ?_⟩
  rw [entry?_setType]
  split
  · cases g.entry? j <;> rfl
  · rfl

theorem retyped_declare (g : Graph) (p : NodeId) (t : ValueType) :
    Retyped g (g.declare p t).1 := by
  unfold declare
  split
  next i declared hn =>
    split
    · exact .refl g
    · refine ⟨capacity_modifyEntry .., rfl, fun j ↦ ?_⟩
      rw [entry?_setNode]
      split
      next hj =>
        subst hj
        obtain ⟨e, he, hnode⟩ := node?_eq_some_iff.1 hn
        simp [he, Entry.outline, hnode, Node.outline]
      · rfl
  · exact .refl g

theorem retyped_declareArguments (g : Graph) (arguments : List (NodeId × Edge)) :
    Retyped g (g.declareArguments arguments).1 := by
  induction arguments generalizing g with
  | nil => exact .refl g
  | cons a arguments ih => exact (retyped_declare g _ _).trans (ih _)

theorem retyped_revisit (g : Graph) (id : NodeId) : Retyped g (g.revisit id).1 := by
  unfold revisit
  split
  · exact .refl g
  next e _ =>
    have hd := retyped_declareArguments g e.node.arguments
    simp only
    split
    · exact hd
    · exact hd.trans (retyped_setType ..)

theorem settleWithin_nil (steps : Nat) (g : Graph) : settleWithin steps g [] = (g, []) := by
  cases steps <;> rfl

/-- A step revisits the first node of the queue and appends what has to follow. -/
theorem settleWithin_cons (steps : Nat) (g : Graph) (id : NodeId) (queue : List NodeId) :
    settleWithin (steps + 1) g (id :: queue) =
      settleWithin steps (g.revisit id).1 (queue ++ (g.revisit id).2) := by
  rw [settleWithin]
  split
  next g' heq => rw [heq, List.append_nil]
  next g' more _ heq => rw [heq]

/-- What every revisit preserves holds of the graph and the queue that a propagation stops with. -/
theorem settleWithin_invariant {P : Graph → List NodeId → Prop}
    (hstep : ∀ g id queue, P g (id :: queue) → P (g.revisit id).1 (queue ++ (g.revisit id).2))
    (steps : Nat) {g : Graph} {queue : List NodeId} (h : P g queue) :
    P (settleWithin steps g queue).1 (settleWithin steps g queue).2 := by
  induction steps generalizing g queue with
  | zero => cases queue <;> exact h
  | succ steps ih =>
      cases queue with
      | nil => exact h
      | cons id queue =>
          rw [settleWithin_cons]
          exact ih (hstep g id queue h)

theorem retyped_settleWithin (steps : Nat) (g : Graph) (queue : List NodeId) :
    Retyped g (settleWithin steps g queue).1 :=
  settleWithin_invariant (P := fun g' _ ↦ Retyped g g')
    (fun g' id _ h ↦ h.trans (retyped_revisit g' id)) steps (.refl g)

theorem retyped_propagate (g : Graph) (changed : List NodeId) :
    Retyped g (g.propagate changed) := by
  have hs := retyped_settleWithin g.budget g changed
  unfold propagate
  split
  next g' heq =>
    rw [heq] at hs
    exact hs
  next g' rest _ heq =>
    rw [heq] at hs
    exact ⟨hs.capacity_eq, hs.size_eq, hs.outline_eq⟩

/-! ## The flag -/

theorem settled_declare (g : Graph) (p : NodeId) (t : ValueType) :
    (g.declare p t).1.settled = g.settled := by
  unfold declare
  split
  · split <;> rfl
  · rfl

theorem settled_declareArguments (g : Graph) (arguments : List (NodeId × Edge)) :
    (g.declareArguments arguments).1.settled = g.settled := by
  induction arguments generalizing g with
  | nil => rfl
  | cons a arguments ih => exact (ih _).trans (settled_declare g _ _)

theorem settled_revisit (g : Graph) (id : NodeId) : (g.revisit id).1.settled = g.settled := by
  unfold revisit
  split
  · rfl
  · simp only
    split <;> exact settled_declareArguments g _

theorem settled_settleWithin (steps : Nat) (g : Graph) (queue : List NodeId) :
    (settleWithin steps g queue).1.settled = g.settled :=
  settleWithin_invariant (P := fun g' _ ↦ g'.settled = g.settled)
    (fun g' id _ h ↦ (settled_revisit g' id).trans h) steps rfl

/-- A propagation keeps the flag exactly if it leaves no work. -/
theorem settled_propagate_iff (g : Graph) (changed : List NodeId) :
    (g.propagate changed).settled = true ↔
      g.settled = true ∧ (settleWithin g.budget g changed).2 = [] := by
  have hs := settled_settleWithin g.budget g changed
  unfold propagate
  split
  next g' heq => rw [heq] at hs ⊢; simp [← hs]
  next g' rest hrest heq =>
    rw [heq]
    simpa using fun _ ↦ hrest

end Graph

end FieldGraph
