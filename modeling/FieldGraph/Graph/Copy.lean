import FieldGraph.Graph.Edit
import FieldGraph.Graph.Walk

/-!
# Copying

The copy of a node reads the same nodes.  The copy of a composite has placeholders of its own, and a
copy of every node of its body that reads the old ones, directly or through other nodes; what does
not read them is shared.
-/

namespace FieldGraph.Graph

/-- The stand-ins for nodes that have been copied. -/
abbrev Renaming := NodeMap NodeId

/-- An edge to the stand-in of a node, or to the node itself if it has none. -/
def Renaming.edge (m : Renaming) (e : Edge) : Edge := e.map fun s => (m.get? s).getD s

/-- Let the new placeholders stand in for the old ones. -/
def Renaming.bind (m : Renaming) (old new : List NodeId) : Renaming :=
  (old.zip new).foldl (fun m p => NodeMap.insert m p.1 p.2) m

/-- A composite with other placeholders and another body, its arguments renamed. -/
def rebind (m : Renaming) (placeholders : List NodeId) (body : Edge) : Node → Node
  | .compositeUnary a _ p => .compositeUnary (m.edge a) body (placeholders[0]?.getD p)
  | .compositeBinary l r _ p q =>
    .compositeBinary (m.edge l) (m.edge r) body (placeholders[0]?.getD p) (placeholders[1]?.getD q)
  | n => n.mapEdges m.edge

/-- Add parameters that stand for arguments from `index` on. -/
def addPlaceholders (g : Graph) (index : Nat) : Nat → List NodeId × Graph
  | 0 => ([], g)
  | count + 1 =>
    let (p, g) := g.addParameter index .none
    let (ps, g) := g.addPlaceholders (index + 1) count
    (p :: ps, g)

/-- The nodes under a root that read a renamed node, themselves included. -/
def readers (g : Graph) (m : Renaming) (root : NodeId) : NodeSet :=
  (g.postOrder true root).foldl (fun reads id =>
    if NodeMap.contains m id ∨ (g.edges id).any reads.contains then reads.insert id () else reads)
    NodeMap.empty

/-- How the composites met inside a body are copied; none is copied that may not be opened. -/
abbrev Copier := NodeId → Graph → Node → Renaming → Option (NodeId × Graph)

/-- Copy a node that reads a renamed node, unless there is a stand-in for it already. -/
def copyReader (copyInner : Copier) (reads : NodeSet) (state : Renaming × Graph) (id : NodeId) :
    Renaming × Graph :=
  let (m, g) := state
  if NodeMap.contains m id ∨ !reads.contains id then (m, g)
  else
    match g.node? id with
    | none => (m, g)
    | some inner =>
      let copied :=
        if inner.isComposite then copyInner id g inner m
        else some (g.insert (inner.mapEdges m.edge))
      match copied with
      | none => (m, g)
      | some (copy, g) => (NodeMap.insert m id copy, g)

/-- Copy the nodes of a body that read a renamed node.  Returns what stands in for the body. -/
def copyBody (copyInner : Copier) (g : Graph) (m : Renaming) : Edge → Edge × Graph
  | none => (none, g)
  | some root =>
    let (m, g) := (g.postOrder false root).foldl (copyReader copyInner (g.readers m root)) (m, g)
    (m.edge (some root), g)

/-- Copy a composite, renaming its arguments.

The composites that may still be opened are listed.  A composite that is met inside its own body is
not copied again but shared, which ends the recursion on graphs with a cycle. -/
def copyComposite (available : List NodeId) (g : Graph) (n : Node) (outer : Renaming) :
    NodeId × Graph :=
  let (fresh, g) := g.addPlaceholders 0 n.placeholders.length
  let copyInner : Copier := fun id g inner m =>
    if _ : id ∈ available then some (copyComposite (available.erase id) g inner m) else none
  let (body, g) := g.copyBody copyInner (outer.bind n.placeholders fresh) n.body?.join
  g.insert (rebind outer fresh body n)
termination_by available.length
decreasing_by
  rename_i h
  rw [List.length_erase_of_mem h]
  have := List.length_pos_of_mem h
  omega

/-- Copy a node. -/
def duplicate (g : Graph) (id : NodeId) : Except GraphError (NodeId × Graph) :=
  match g.node? id with
  | none => .error (.unknownNode id)
  | some n =>
    if n.isComposite then .ok (copyComposite (g.composites.erase id) g n NodeMap.empty)
    else g.add n

end FieldGraph.Graph
