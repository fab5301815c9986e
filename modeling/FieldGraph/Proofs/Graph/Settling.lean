import FieldGraph.Proofs.Graph.Consistency
import FieldGraph.Proofs.Graph.Walks
import Mathlib.Algebra.GroupWithZero.Nat

/-!
# Coming to rest

A propagation stops in time exactly if revisiting without a limit comes to rest within the budget.
It does come to rest where types flow forward only, from a node to its consumers and from an
argument to its placeholder, and every placeholder stands for one argument.  The number of revisits
is then bounded by the number of paths along which the types flow.  Because the queue holds a node
once for every change it is told of, that number is not bounded by the budget.
-/

namespace FieldGraph.Graph

open Relation

variable {g g' : Graph} {w : NodeId → Nat}

/-- Revisiting the queue without a limit comes to rest after a number of revisits. -/
inductive Rests : Graph → List NodeId → Nat → Graph → Prop
  | done {g : Graph} : Rests g [] 0 g
  | revisit {g g' : Graph} {id : NodeId} {queue : List NodeId} {n : Nat} :
      Rests (g.revisit id).1 (queue ++ (g.revisit id).2) n g' → Rests g (id :: queue) (n + 1) g'

theorem Rests.settleWithin {queue : List NodeId} {n : Nat} (h : Rests g queue n g') {steps : Nat}
    (hn : n ≤ steps) : settleWithin steps g queue = (g', []) := by
  induction h generalizing steps with
  | done => exact settleWithin_nil ..
  | revisit _ ih =>
      obtain ⟨k, rfl⟩ : ∃ k, steps = k + 1 := ⟨steps - 1, by omega⟩
      rw [settleWithin_cons]
      exact ih (by omega)

/-- A propagation that leaves no work has come to rest. -/
theorem rests_settleWithin {steps : Nat} {queue : List NodeId}
    (h : (settleWithin steps g queue).2 = []) :
    ∃ n ≤ steps, Rests g queue n (settleWithin steps g queue).1 := by
  induction steps generalizing g queue with
  | zero =>
      cases queue with
      | nil => exact ⟨0, Nat.le_refl _, .done⟩
      | cons id queue => cases h
  | succ steps ih =>
      cases queue with
      | nil => exact ⟨0, Nat.zero_le _, .done⟩
      | cons id queue =>
          rw [settleWithin_cons] at h ⊢
          obtain ⟨n, hn, hr⟩ := ih h
          exact ⟨n + 1, by omega, .revisit hr⟩

/-- The flag stays exactly if revisiting without a limit comes to rest within the budget. -/
theorem settled_propagate_iff_rests (g : Graph) (changed : List NodeId) :
    (g.propagate changed).settled = true ↔
      g.settled = true ∧ ∃ n g', Rests g changed n g' ∧ n ≤ g.budget := by
  rw [settled_propagate_iff]
  refine and_congr_right fun _ ↦ ⟨fun h ↦ ?_, fun ⟨n, g', hr, hn⟩ ↦ ?_⟩
  · obtain ⟨n, hn, hr⟩ := rests_settleWithin h
    exact ⟨n, _, hr, hn⟩
  · rw [hr.settleWithin hn]

/-- Where it comes to rest, every node is consistent. -/
theorem Rests.consistent {queue : List NodeId} {n : Nat} (hr : Rests g queue n g')
    (h : g.ConsistentBut queue) (hw : g.WellFormed) : g'.Consistent := by
  have hc := h.settleWithin hw n
  rw [hr.settleWithin (Nat.le_refl n)] at hc
  exact consistentBut_nil.1 hc

/-! ## The flow of types -/

/-- The arguments of all live composites, each with the placeholder that stands for it. -/
def arguments (g : Graph) : List (NodeId × Edge) :=
  g.ids.flatMap fun id ↦ ((g.node? id).map Node.arguments).getD []

theorem mem_arguments {a : NodeId × Edge} :
    a ∈ g.arguments ↔ ∃ id n, g.node? id = some n ∧ a ∈ n.arguments := by
  rw [arguments, List.mem_flatMap]
  constructor
  · rintro ⟨id, -, ha⟩
    cases hn : g.node? id with
    | none => simp [hn] at ha
    | some n => exact ⟨id, n, hn, by simpa [hn] using ha⟩
  · rintro ⟨id, n, hn, ha⟩
    obtain ⟨e, he, -⟩ := node?_eq_some_iff.1 hn
    exact ⟨id, mem_ids.2 (contains_of_entry he), by simpa [hn] using ha⟩

theorem arguments_map_fst (g : Graph) : g.arguments.map Prod.fst = g.placeholders := by
  have along (ids : List NodeId) :
      (ids.flatMap fun id ↦ ((g.node? id).map Node.arguments).getD []).map Prod.fst =
        (ids.filterMap g.entry?).flatMap (·.node.placeholders) := by
    induction ids with
    | nil => rfl
    | cons id ids ih =>
        rw [List.flatMap_cons, List.map_append, ih, List.filterMap_cons, node?]
        cases g.entry? id with
        | none => rfl
        | some e => simp [Node.arguments_map_fst]
  rw [arguments, along, placeholders, NodeMap.values_eq]
  rfl

theorem Retyped.arguments_eq (h : Retyped g g') : g'.arguments = g.arguments := by
  rw [arguments, arguments, h.ids_eq]
  congr 1
  funext id
  cases hn : g'.node? id with
  | none =>
      cases hm : g.node? id with
      | none => rfl
      | some m =>
          obtain ⟨n, hn', -⟩ := h.symm.node? hm
          rw [hn] at hn'
          cases hn'
  | some n =>
      obtain ⟨m, hm, ho⟩ := h.node? hn
      simp [hm, Node.arguments_eq_of_outline ho]

/-- The nodes that may have to be revisited when the type of a node changes: its consumers, and the
placeholders of the arguments that are wired to it. -/
def fed (g : Graph) (id : NodeId) : List NodeId :=
  g.dependents id ++ (g.arguments.filter (·.2 = some id)).map Prod.fst

def Feeds (g : Graph) (a b : NodeId) : Prop := b ∈ g.fed a

theorem Retyped.fed_eq (h : Retyped g g') (id : NodeId) : g'.fed id = g.fed id := by
  have hd := congrArg (Option.map Prod.snd) (h.outline_eq id)
  simp only [Option.map_map] at hd
  change (g'.entry? id).map Entry.dependents = (g.entry? id).map Entry.dependents at hd
  rw [fed, fed, h.arguments_eq, dependents, dependents, hd]

/-- The weight of a node is the number of paths along which types flow from it. -/
def Weighs (g : Graph) (w : NodeId → Nat) : Prop :=
  ∀ id, w id = 1 + ((g.fed id).map w).sum

theorem Weighs.retyped (h : g.Weighs w) (hr : Retyped g g') : g'.Weighs w := fun id ↦ by
  rw [hr.fed_eq]
  exact h id

/-- Types flow from live nodes only. -/
theorem contains_of_feeds (hw : g.WellFormed) {a b : NodeId} (h : g.Feeds a b) : g.contains a := by
  rcases List.mem_append.1 h with h | h
  · cases he : g.entry? a with
    | none => simp [dependents, he] at h
    | some e => exact contains_of_entry he
  · obtain ⟨c, hc, -⟩ := List.mem_map.1 h
    obtain ⟨hc, hs⟩ := List.mem_filter.1 hc
    obtain ⟨id, n, hn, hc⟩ := mem_arguments.1 hc
    obtain ⟨e, he, rfl⟩ := node?_eq_some_iff.1 hn
    exact hw.edges_live he (Node.mem_edges_of_mem_arguments hc (by simpa using hs))

/-- Where the flow has no cycle, there are weights. -/
theorem exists_weighs (hw : g.WellFormed) (ha : ∀ id, ¬ TransGen g.Feeds id id) :
    ∃ w, g.Weighs w := by
  have hwf : WellFounded fun b a ↦ g.Feeds a b := by
    refine wellFounded_of_acyclic (fun a b h ↦ show a.index < g.capacity from ?_) ha
    obtain ⟨e, he⟩ := contains_iff.1 (contains_of_feeds hw h)
    exact index_lt_of_entry he
  refine ⟨hwf.fix fun id w ↦ 1 + ((g.fed id).attach.map fun f ↦ w f.1 f.2).sum, fun id ↦ ?_⟩
  rw [hwf.fix_eq, List.attach_map_val]

/-! ## The potential of a queue -/

/-- The weight of a placeholder that does not declare the type of its argument. -/
def debt (g : Graph) (w : NodeId → Nat) (a : NodeId × Edge) : Nat :=
  match g.node? a.1 with
  | some (.parameter _ declared) => if declared = g.edgeType a.2 then 0 else w a.1
  | _ => 0

/-- The revisits that a queue and the placeholders out of step can give rise to. -/
def backlog (g : Graph) (w : NodeId → Nat) (queue : List NodeId) : Nat :=
  (queue.map w).sum + (g.arguments.map (g.debt w)).sum

private theorem sum_map_le_add_filter {α : Type} {l : List α} {f f' c : α → Nat} {p : α → Bool}
    (h : ∀ b ∈ l, f' b ≤ f b + if p b then c b else 0) :
    (l.map f').sum ≤ (l.map f).sum + ((l.filter p).map c).sum := by
  induction l with
  | nil => simp
  | cons b l ih =>
      have hb := h b List.mem_cons_self
      have := ih fun b hb ↦ h b (List.mem_cons_of_mem _ hb)
      by_cases hp : p b <;> simp [hp] at hb ⊢ <;> omega

private theorem sum_map_add_le {α : Type} {l : List α} {f f' : α → Nat}
    (h : ∀ b ∈ l, f' b ≤ f b) {a : α} (ha : a ∈ l) {c : Nat} (hc : f' a + c ≤ f a) :
    (l.map f').sum + c ≤ (l.map f).sum := by
  induction l with
  | nil => cases ha
  | cons b l ih =>
      have hb := h b List.mem_cons_self
      have htail : ∀ b ∈ l, f' b ≤ f b := fun b hb ↦ h b (List.mem_cons_of_mem _ hb)
      have hle := sum_map_le_add_filter (p := fun _ ↦ false) (c := f) (by simpa using htail)
      simp only [List.filter_false, List.map_nil, List.sum_nil, Nat.add_zero] at hle
      simp only [List.map_cons, List.sum_cons]
      rcases List.mem_cons.1 ha with rfl | ha
      · omega
      · have := ih htail ha
        omega

/-- Declaring the type of an argument turns the debt of its placeholder into work. -/
theorem debts_declare (hu : g.placeholders.Nodup) {a : NodeId × Edge} (ha : a ∈ g.arguments) :
    (g.arguments.map ((g.declare a.1 (g.edgeType a.2)).1.debt w)).sum +
        ((g.declare a.1 (g.edgeType a.2)).2.map w).sum ≤ (g.arguments.map (g.debt w)).sum := by
  unfold declare
  split
  next i declared hn =>
    split
    · simp
    next hne =>
      have hedge (e : Edge) : (g.setNode a.1 (.parameter i (g.edgeType a.2))).edgeType e =
          g.edgeType e := by
        refine edgeType_congr fun s _ ↦ ?_
        rw [type?, type?, entry?_setNode]
        split
        · cases g.entry? s <;> rfl
        · rfl
      -- nothing else stands for the placeholder, so only the debt of `a` changes
      have other {b : NodeId × Edge} (hb : b ∈ g.arguments) (hne : b ≠ a) : b.1 ≠ a.1 := by
        rw [← arguments_map_fst] at hu
        exact fun h ↦ hne (List.inj_on_of_nodup_map hu hb ha h)
      obtain ⟨e, he, hnode⟩ := node?_eq_some_iff.1 hn
      have hself : (g.setNode a.1 (.parameter i (g.edgeType a.2))).debt w a = 0 := by
        simp [debt, node?, entry?_setNode, he, hedge]
      refine sum_map_add_le (fun b hb ↦ ?_) ha (c := _) ?_
      · by_cases hba : b = a
        · rw [hba, hself]
          exact Nat.zero_le _
        · have hnode : (g.setNode a.1 (.parameter i (g.edgeType a.2))).node? b.1 = g.node? b.1 := by
            rw [node?, node?, entry?_setNode, if_neg (Ne.symm (other hb hba))]
          rw [debt, debt, hnode]
          simp [hedge]
      · rw [hself]
        simp [debt, hn, hne]
  · simp

theorem debts_declareArguments (hu : g.placeholders.Nodup) {as : List (NodeId × Edge)}
    (has : ∀ a ∈ as, a ∈ g.arguments) :
    (g.arguments.map ((g.declareArguments as).1.debt w)).sum +
        ((g.declareArguments as).2.map w).sum ≤ (g.arguments.map (g.debt w)).sum := by
  induction as generalizing g with
  | nil => simp [declareArguments]
  | cons a as ih =>
      have hr := retyped_declare g a.1 (g.edgeType a.2)
      have hd := debts_declare (w := w) hu (has a List.mem_cons_self)
      have := ih (g := (g.declare a.1 (g.edgeType a.2)).1)
        (by rw [← arguments_map_fst, hr.arguments_eq, arguments_map_fst]; exact hu)
        (fun b hb ↦ by rw [hr.arguments_eq]; exact has b (List.mem_cons_of_mem _ hb))
      rw [hr.arguments_eq] at this
      simp only [declareArguments, List.map_append, List.sum_append]
      omega

/-- A new type puts the placeholders of the arguments that are wired to the node in debt. -/
theorem debts_setType (g : Graph) (w : NodeId → Nat) (id : NodeId) (t : ValueType) :
    (g.arguments.map ((g.setType id t).debt w)).sum ≤ (g.arguments.map (g.debt w)).sum +
      ((g.arguments.filter (·.2 = some id)).map fun a ↦ w a.1).sum := by
  refine sum_map_le_add_filter fun b _ ↦ ?_
  have hnode : (g.setType id t).node? b.1 = g.node? b.1 := by
    rw [node?, node?, entry?_setType]
    split
    · cases g.entry? b.1 <;> rfl
    · rfl
  by_cases hb : b.2 = some id
  · have : (g.setType id t).debt w b ≤ w b.1 := by
      unfold debt
      split
      · split
        · exact Nat.zero_le _
        · exact Nat.le_refl _
      · exact Nat.zero_le _
    simp only [hb, decide_true, if_true]
    omega
  · have hedge : (g.setType id t).edgeType b.2 = g.edgeType b.2 := by
      refine edgeType_congr fun s hs ↦ type?_setType_of_ne ?_
      rintro rfl
      exact hb hs
    rw [debt, debt, hnode, hedge]
    exact Nat.le_add_right _ _

/-- Every revisit makes the backlog smaller. -/
theorem backlog_revisit (hu : g.placeholders.Nodup) (hwt : g.Weighs w) (id : NodeId)
    (queue : List NodeId) :
    (g.revisit id).1.backlog w (queue ++ (g.revisit id).2) < g.backlog w (id :: queue) := by
  have hw := hwt id
  rw [backlog, (retyped_revisit g id).arguments_eq, backlog]
  simp only [List.map_append, List.sum_append, List.map_cons, List.sum_cons]
  cases he : g.entry? id with
  | none =>
      rw [revisit_dead he]
      simp only [List.map_nil, List.sum_nil]
      omega
  | some e =>
      have has : ∀ a ∈ e.node.arguments, a ∈ g.arguments := fun a ha ↦
        mem_arguments.2 ⟨id, e.node, node?_of_entry he, ha⟩
      have hd := debts_declareArguments (w := w) hu has
      rw [revisit_eq he]
      simp only
      split
      · omega
      · have ht := debts_setType (g.declareArguments e.node.arguments).1 w id (g.infer e.node)
        rw [(retyped_declareArguments g e.node.arguments).arguments_eq] at ht
        rw [fed, dependents_of_entry he, List.map_append, List.sum_append, List.map_map] at hw
        simp only [List.map_append, List.sum_append]
        change _ = 1 + (_ + ((g.arguments.filter (·.2 = some id)).map fun a ↦ w a.1).sum) at hw
        omega

/-- Without a cycle in the flow and without shared placeholders every propagation would come to
rest, within the paths along which types can flow from its queue. -/
theorem exists_rests_le_backlog (hu : g.placeholders.Nodup) (hwt : g.Weighs w)
    (queue : List NodeId) : ∃ n g', Rests g queue n g' ∧ n ≤ g.backlog w queue := by
  induction hk : g.backlog w queue using Nat.strongRecOn generalizing g queue with
  | ind k ih =>
      subst hk
      cases queue with
      | nil => exact ⟨0, g, .done, Nat.zero_le _⟩
      | cons id queue =>
          have hr := retyped_revisit g id
          have hlt := backlog_revisit hu hwt id queue
          have hu' : (g.revisit id).1.placeholders.Nodup := by
            rw [← arguments_map_fst, hr.arguments_eq, arguments_map_fst]
            exact hu
          obtain ⟨n, g', hrest, hn⟩ := ih _ hlt hu' (hwt.retyped hr) _ rfl
          exact ⟨n + 1, g', .revisit hrest, by omega⟩

/-- The flag survives an edit exactly if revisiting without a limit comes to rest within sixteen
revisits for each live node and one node more.  Where it comes to rest, the types are consistent if
they were so before.  It does come to rest, within the paths along which types flow from what the
edit touched, where the flow has no cycle and no placeholder is shared. -/
theorem settled_change_iff {g₀ : Graph} (hs : Steps empty g₀) {touched : List NodeId}
    (hc : Change g₀ touched g) :
    ((g.propagate touched).settled = true ↔
        g₀.settled = true ∧ ∃ n g', Rests g touched n g' ∧ n ≤ 16 * (g.size + 1)) ∧
      (g₀.Consistent → ∀ n g', Rests g touched n g' → g'.Consistent) ∧
      (g.placeholders.Nodup → (∀ id, ¬ TransGen g.Feeds id id) →
        ∃ w, g.Weighs w ∧ ∃ n g', Rests g touched n g' ∧ n ≤ g.backlog w touched) := by
  have hw₀ : g₀.WellFormed := hs.wellFormed .empty
  have hw : g.WellFormed := hw₀.change hc
  refine ⟨hc.settled_eq ▸ settled_propagate_iff_rests g touched,
    fun h n g' hr ↦ hr.consistent (h.change hw₀ hc) hw, fun hu ha ↦ ?_⟩
  obtain ⟨w, hwt⟩ := exists_weighs hw ha
  exact ⟨w, hwt, exists_rests_le_backlog hu hwt touched⟩

/-- A composite with its argument and its body wired. -/
def wiredComposite : List Action :=
  [.constant (.float 1), .compositeUnary, .setEdge ⟨2⟩ .input (some ⟨0⟩), .unary .negate ⟨1⟩,
    .output ⟨3⟩, .setBody ⟨2⟩ ⟨4⟩]

/-- Retyping its argument comes to rest: types flow from the argument to the placeholder, through
the body and to the composite. -/
theorem settled_change_wiredComposite :
    let g := (after wiredComposite).setNode ⟨0⟩ (.constant (.float2 ⟨1, 2⟩))
    g.placeholders.Nodup ∧ (∀ id, ¬ TransGen g.Feeds id id) ∧
      ∃ w, g.Weighs w ∧ ∃ n g', Rests g [⟨0⟩] n g' ∧ n ≤ g.backlog w [⟨0⟩] := by
  intro g
  have hs : Steps empty (after wiredComposite) := steps_foldl_apply .empty wiredComposite
  have hc : Change (after wiredComposite) [⟨0⟩] g := by
    refine .replace (n := .constant (.float 1)) ?_ ⟨rfl, rfl, rfl, fun h ↦ h⟩
    decide +kernel
  have hu : g.placeholders.Nodup := by decide +kernel
  have hrank : ∀ a ∈ g.ids, ∀ b ∈ g.fed a,
      [0, 1, 3, 4, 2].idxOf a.index < [0, 1, 3, 4, 2].idxOf b.index := by decide +kernel
  have ha : ∀ id, ¬ TransGen g.Feeds id id := acyclic_of_rank _ fun a b hf ↦
    hrank a (mem_ids.2 (contains_of_feeds ((hs.wellFormed .empty).change hc) hf)) b hf
  exact ⟨hu, ha, (settled_change_iff hs hc).2.2 hu ha⟩

/-! ## A pulse that outlives the budget -/

/-- A sum of a node and of the last of a row of negations that starts from it. -/
def echo (source delay : Nat) : List Action :=
  (List.range delay).map (fun k ↦ .unary .negate ⟨source + k⟩) ++
    [.binary .add ⟨source⟩ ⟨source + delay⟩]

/-- Lengths of vectors that repeat a node in four slots, each the next one's source. -/
def lengths (source count : Nat) : List Action :=
  (List.range count).flatMap fun k ↦
    [.construct (List.replicate 4 ⟨source + 2 * k⟩), .unary .length ⟨source + 2 * k + 1⟩]

/-- The product of a constant and a delayed copy of it, which is unsettled for a moment when the
constant changes its shape.  The echoes multiply that pulse by eight, and every length lets each
pulse through after four revisits of its vector. -/
def pulse : List Action :=
  [.constant (.float 1), .unary .negate ⟨0⟩, .unary .negate ⟨1⟩, .binary .dot ⟨0⟩ ⟨2⟩] ++
    echo 3 3 ++ echo 7 9 ++ echo 17 6 ++ lengths 24 8 ++ [.output ⟨40⟩]

/-- A graph of 42 nodes without a cycle that is left with a stale type: the output stays unsettled
although its source is a scalar. -/
theorem pulse_outlives_budget :
    let g := after (pulse ++ [.setConstant ⟨0⟩ (.float2 ⟨1, 2⟩)])
    (after pulse).settled = true ∧ g.findAnyCycle ⟨41⟩ = [] ∧ g.settled = false ∧
      g.type? ⟨40⟩ = some (.of .float) ∧ g.type? ⟨41⟩ = some .indeterminate := by
  decide +kernel

end FieldGraph.Graph
