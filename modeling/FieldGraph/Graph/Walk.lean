import FieldGraph.Graph.Basic

/-!
# Depth-first walks

A walk enters nodes from given roots on, always going on from the node entered last, and finishes a
node once it has looked at everything the node leads to.  Reachability, orders in which operands
come first, and the search for cycles are all read off one walk: the nodes in the order in which
they were entered, the nodes in the order in which they were finished, and the first cycle met.
-/

namespace FieldGraph.Graph

/-- What a walk found. -/
structure Walk where
  /-- The nodes entered, in order. -/
  entered : List NodeId
  /-- The nodes finished, in order. -/
  finished : List NodeId
  /-- The cycle that stopped the walk, each node leading to the next and the last to the first. -/
  cycle : Option (List NodeId)
deriving Repr

namespace Walk

/-- The sum of the weights of a list. -/
def total {α : Type} (w : α → Nat) : List α → Nat
  | [] => 0
  | a :: l => w a + total w l

/-- A walk under way.  The open nodes form a path: each is entered from the next one in the list,
and comes with the nodes that are still to be looked at from there. -/
structure State where
  seen : NodeSet
  /-- The nodes entered, latest first. -/
  entered : List NodeId
  /-- The nodes finished, latest first. -/
  finished : List NodeId
  /-- The open nodes, innermost first. -/
  path : List (NodeId × List NodeId)
  /-- What is still to be looked at from the innermost open node. -/
  todo : List NodeId

namespace State

def start (roots : List NodeId) : State := ⟨NodeMap.empty, [], [], [], roots⟩

def done (s : State) (cycle : Option (List NodeId)) : Walk :=
  ⟨s.entered.reverse, s.finished.reverse, cycle⟩

/-- The steps still needed to finish the open nodes. -/
def pending (s : State) : Nat := s.todo.length + total (fun p => p.2.length + 1) s.path

end State

/-- The steps that entering and finishing the live nodes not seen yet can take. -/
def unseenWeight (g : Graph) (next : Node → List NodeId) (seen : NodeSet) : Nat :=
  total (fun id => (((g.node? id).map next).getD []).length + 1)
    (g.ids.filter fun id => !seen.contains id)

private theorem total_filter_insert_le {l : List NodeId} (w : NodeId → Nat) {seen : NodeSet}
    {id : NodeId} (hmem : id ∈ l) (hid : seen.contains id = false) :
    total w (l.filter fun i => !(seen.insert id ()).contains i) + w id ≤
      total w (l.filter fun i => !seen.contains i) := by
  have step : ∀ i, (seen.insert id ()).contains i = (decide (id = i) || seen.contains i) := by
    intro i
    by_cases h : id = i <;> simp [NodeMap.contains_eq, h]
  have le : ∀ l : List NodeId, total w (l.filter fun i => !(seen.insert id ()).contains i) ≤
      total w (l.filter fun i => !seen.contains i) := by
    intro l
    induction l with
    | nil => simp
    | cons i l ih =>
      simp only [List.filter_cons, step i]
      cases seen.contains i <;> cases h : decide (id = i) <;> simp [total] <;> omega
  induction l with
  | nil => simp at hmem
  | cons i l ih =>
    rcases List.mem_cons.1 hmem with rfl | hmem
    · have := le l
      simp only [List.filter_cons, step id, hid]
      simp [total]
      omega
    · have := ih hmem
      simp only [List.filter_cons, step i]
      cases seen.contains i <;> cases h : decide (id = i) <;> simp [total] <;> omega

/-- Entering a live node uses up its weight. -/
theorem unseenWeight_insert {g : Graph} (next : Node → List NodeId) {seen : NodeSet} {id : NodeId}
    {n : Node} (hn : g.node? id = some n) (hid : seen.contains id = false) :
    unseenWeight g next (seen.insert id ()) + ((next n).length + 1) ≤ unseenWeight g next seen := by
  have hmem : id ∈ g.ids := by
    rw [ids, NodeMap.mem_ids, NodeMap.contains_eq, Option.isSome_iff_exists]
    obtain ⟨e, he, _⟩ := Option.map_eq_some_iff.1 hn
    exact ⟨e, he⟩
  have := total_filter_insert_le (fun id => (((g.node? id).map next).getD []).length + 1) hmem hid
  simpa [unseenWeight, hn] using this

/-- Go on with a walk to its end.  Dead nodes are passed over, and so are nodes seen before, unless
`stop` is set and the node is still open: then the path from it closes a cycle. -/
def run (g : Graph) (next : Node → List NodeId) (stop : Bool) (s : State) : Walk :=
  match s with
  | ⟨_, _, _, [], []⟩ => s.done none
  | ⟨seen, entered, finished, (id, rest) :: path, []⟩ =>
    run g next stop ⟨seen, entered, id :: finished, path, rest⟩
  | ⟨seen, entered, finished, path, id :: todo⟩ =>
    match _ : g.node? id with
    | none => run g next stop ⟨seen, entered, finished, path, todo⟩
    | some n =>
      if _ : seen.contains id = false then
        run g next stop ⟨seen.insert id (), id :: entered, finished, (id, todo) :: path, next n⟩
      else if stop ∧ id ∈ path.map Prod.fst then
        s.done (some (id :: ((path.map Prod.fst).takeWhile (· ≠ id)).reverse))
      else run g next stop ⟨seen, entered, finished, path, todo⟩
termination_by unseenWeight g next s.seen + s.pending
decreasing_by
  · simp [State.pending, total]
  · simp [State.pending]
  · rename_i hn hid
    have := unseenWeight_insert next hn hid
    simp [State.pending, total] at *; omega
  · simp [State.pending]

end Walk

/-- Walk from the roots, one after another. -/
def walk (g : Graph) (next : Node → List NodeId) (stop : Bool) (roots : List NodeId) : Walk :=
  Walk.run g next stop (Walk.State.start roots)

/-- Every live node that can be reached from a root through edges, the root first. -/
def reachable (g : Graph) (root : NodeId) : List NodeId :=
  (g.walk (fun n => n.edges.reverse) false [root]).entered

/-- The edges of a node, those to its body left out unless `bodies` is set. -/
def bodyFilter (bodies : Bool) (n : Node) : List NodeId :=
  match bodies, n.body?.join with
  | false, some body => n.edges.filter (· ≠ body)
  | _, _ => n.edges

/-- The nodes that a root reads, each after everything it reads itself.  Edges that close a cycle
are passed over. -/
def postOrder (g : Graph) (bodies : Bool) (root : NodeId) : List NodeId :=
  (g.walk (fun n => (bodyFilter bodies n).reverse) false [root]).finished

/-- The nodes of one cycle in the order of its edges, or nothing if none can be reached from the
output or the listed nodes. -/
def findCycle (g : Graph) (output : NodeId) (nodes : List NodeId) : List NodeId :=
  (g.walk Node.edges true (output :: nodes)).cycle.getD []

/-- A cycle anywhere in the graph, searched from the output first. -/
def findAnyCycle (g : Graph) (output : NodeId) : List NodeId := g.findCycle output g.ids

end FieldGraph.Graph
