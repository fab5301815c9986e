import FieldGraph.Graph.Copy
import FieldGraph.Proofs.Graph.Growth

/-!
# Orders in which operands come first

The nodes under a root are listed after the nodes that they read, provided that none of them leads
to itself.  So a pass over the list meets a node only once it has met all that the node reads; the
pass that marks what reads a renamed node marks exactly the nodes that lead to one.
-/

namespace FieldGraph.Graph

open Relation

variable {g : Graph} {bodies : Bool} {root id s : NodeId} {n : Node} {pre post : List NodeId}

/-! ## The edges that are followed -/

theorem mem_edges_of_mem_bodyFilter (h : s ∈ bodyFilter bodies n) : s ∈ n.edges := by
  unfold bodyFilter at h
  split at h
  · exact (List.mem_filter.1 h).1
  · exact h

/-- Without the body, only operands are followed. -/
theorem mem_operands_of_mem_bodyFilter (h : s ∈ bodyFilter false n) : s ∈ n.operands := by
  have hmem := mem_edges_of_mem_bodyFilter h
  rw [Node.edges_eq_operands_append, List.mem_append] at hmem
  refine hmem.resolve_right fun hbody ↦ ?_
  rw [Option.mem_toList] at hbody
  simp [bodyFilter, hbody] at h

/-- An operand is followed unless it is the body as well. -/
theorem mem_bodyFilter_of_mem_operands (h : s ∈ n.operands) (hbody : n.body?.join ≠ some s) :
    s ∈ bodyFilter bodies n := by
  have hmem := Node.mem_edges_of_mem_operands h
  unfold bodyFilter
  split
  next body hjoin =>
    refine List.mem_filter.2 ⟨hmem, ?_⟩
    rw [hjoin] at hbody
    simpa using fun heq ↦ hbody (congrArg some heq.symm)
  · exact hmem

/-- The nodes that a node is listed after, the last one first. -/
def followed (bodies : Bool) (n : Node) : List NodeId := (bodyFilter bodies n).reverse

theorem mem_edges_of_mem_followed (n : Node) (s : NodeId) (h : s ∈ followed bodies n) :
    s ∈ n.edges := mem_edges_of_mem_bodyFilter (List.mem_reverse.1 h)

/-! ## The list -/

theorem explores_postOrder (g : Graph) (bodies : Bool) (root : NodeId) :
    Walk.Explores g (followed bodies) false [root] (g.walk (followed bodies) false [root]) :=
  explores_walk ..

/-- The root leads to everything listed, through the edges that are followed. -/
theorem leads_of_mem_postOrder (h : id ∈ g.postOrder bodies root) :
    ReflTransGen (g.Leads (followed bodies)) root id := by
  have he := explores_postOrder g bodies root
  obtain ⟨r, hr, hreach⟩ := he.reached id (he.entered_of_finished id h)
  rwa [List.mem_singleton.1 hr] at hreach

theorem reaches_of_mem_postOrder (h : id ∈ g.postOrder bodies root) :
    ReflTransGen g.Reads root id :=
  reaches_of_leads mem_edges_of_mem_followed (leads_of_mem_postOrder h)

section Acyclic

-- nothing under the root leads to itself
variable (hacyclic : ∀ id, ReflTransGen g.Reads root id → ¬ TransGen g.Reads id id)
include hacyclic

theorem root_mem_postOrder (hl : g.contains root) : root ∈ g.postOrder bodies root := by
  refine (explores_postOrder g bodies root).finished_of_root ?_ root List.mem_cons_self hl
  refine walk_cycle_eq_none (fun r hr id _ hreach hcycle ↦ ?_) false
  rw [List.mem_singleton.1 hr] at hreach
  exact hacyclic id (reaches_of_leads mem_edges_of_mem_followed hreach)
    (TransGen.mono (fun _ _ ↦ reads_of_leads mem_edges_of_mem_followed) _ _ hcycle)

/-- Everything that a listed node reads, of what is followed, is listed before it. -/
theorem mem_of_postOrder_eq_append (hsplit : g.postOrder bodies root = pre ++ id :: post)
    (hn : g.node? id = some n) (hs : s ∈ bodyFilter bodies n) (hl : g.contains s) : s ∈ pre := by
  have ho := (explores_postOrder g bodies root).ordered
  rw [show (g.walk (followed bodies) false [root]).finished = pre ++ id :: post from hsplit,
    List.reverse_append, List.reverse_cons, List.append_assoc] at ho
  have hahead : s ∈ g.ahead (followed bodies) id := by
    rw [ahead_of_node? hn]
    exact List.mem_reverse.2 hs
  rcases ho.looked s hahead hl with hmem | ⟨-, -, hback⟩
  · exact List.mem_reverse.1 hmem
  · have hreads : g.Reads id s := by
      rw [Reads, edges_of_node? hn]
      exact mem_edges_of_mem_bodyFilter hs
    have hid : id ∈ g.postOrder bodies root := by
      rw [hsplit]
      exact List.mem_append_right _ List.mem_cons_self
    exact absurd (TransGen.head' hreads (reaches_of_leads mem_edges_of_mem_followed hback))
      (hacyclic id (reaches_of_mem_postOrder hid))

/-- With the bodies, everything that the root leads to is listed. -/
theorem mem_postOrder_iff (hw : g.WellFormed) (hl : g.contains root) :
    id ∈ g.postOrder true root ↔ ReflTransGen g.Reads root id := by
  refine ⟨reaches_of_mem_postOrder, fun hreach ↦ ?_⟩
  induction hreach with
  | refl => exact root_mem_postOrder hacyclic hl
  | @tail a b _ hab ih =>
      obtain ⟨n, hn, hmem⟩ := exists_node_of_mem_edges hab
      obtain ⟨pre, post, hsplit⟩ := List.append_of_mem ih
      rw [hsplit]
      exact List.mem_append_left _
        (mem_of_postOrder_eq_append hacyclic hsplit hn hmem (hw.contains_of_reads hab))

end Acyclic

/-! ## What reads a renamed node -/

/-- The node leads to a node that is renamed. -/
def Renames (g : Graph) (m : Renaming) (id : NodeId) : Prop :=
  ∃ k, NodeMap.contains m k ∧ ReflTransGen g.Reads id k

theorem renames_iff {m : Renaming} :
    g.Renames m id ↔ NodeMap.contains m id ∨ ∃ s ∈ g.edges id, g.Renames m s := by
  constructor
  · rintro ⟨k, hk, hreach⟩
    rcases hreach.cases_head with rfl | ⟨s, hs, hreach⟩
    · exact .inl hk
    · exact .inr ⟨s, hs, k, hk, hreach⟩
  · rintro (hid | ⟨s, hs, k, hk, hreach⟩)
    · exact ⟨id, hid, .refl⟩
    · exact ⟨k, hk, .head hs hreach⟩

/-- A pass over nodes that come after all they read marks those that lead to a renamed node. -/
theorem contains_foldl_readers_iff {m : Renaming} {order : List NodeId}
    (horder : ∀ {pre id post}, order = pre ++ id :: post → ∀ s ∈ g.edges id, s ∈ pre) :
    NodeMap.contains (order.foldl (fun (reads : NodeSet) id =>
      if NodeMap.contains m id ∨ (g.edges id).any reads.contains then reads.insert id () else reads)
      NodeMap.empty) id ↔ id ∈ order ∧ g.Renames m id := by
  induction order using List.reverseRecOn generalizing id with
  | nil => simp [NodeMap.contains_eq]
  | append_singleton order a ih =>
      have hread : ∀ s ∈ g.edges a, s ∈ order := horder rfl
      have horder' {pre id post} (hsplit : order = pre ++ id :: post) : ∀ s ∈ g.edges id, s ∈ pre :=
        @horder pre id (post ++ [a]) (by rw [hsplit, List.append_assoc]; rfl)
      rw [List.foldl_append, List.foldl_cons, List.foldl_nil]
      set reads := order.foldl _ _
      have hmark : (NodeMap.contains m a ∨ (g.edges a).any reads.contains) ↔ g.Renames m a := by
        rw [renames_iff, List.any_eq_true]
        refine or_congr_right (exists_congr fun s ↦ and_congr_right fun hs ↦ ?_)
        rw [ih horder', and_iff_right (hread s hs)]
      rw [List.mem_append, List.mem_singleton]
      split
      next h =>
        rw [NodeMap.contains_insert_iff, ih horder']
        have ha := hmark.1 h
        constructor
        · rintro (rfl | ⟨hid, hr⟩)
          · exact ⟨.inr rfl, ha⟩
          · exact ⟨.inl hid, hr⟩
        · rintro ⟨hid | rfl, hr⟩
          · exact .inr ⟨hid, hr⟩
          · exact .inl rfl
      next h =>
        rw [ih horder']
        refine and_congr_left fun hr ↦ (or_iff_left ?_).symm
        rintro rfl
        exact h (hmark.2 hr)

/-- Of all that the root leads to, what leads to a renamed node is marked. -/
theorem contains_readers_iff (hw : g.WellFormed) (hl : g.contains root)
    (hacyclic : ∀ id, ReflTransGen g.Reads root id → ¬ TransGen g.Reads id id) {m : Renaming}
    (hreach : ReflTransGen g.Reads root id) :
    (g.readers m root).contains id ↔ g.Renames m id := by
  unfold readers
  rw [contains_foldl_readers_iff fun {pre a post} hsplit s hs ↦ ?_,
    and_iff_right ((mem_postOrder_iff hacyclic hw hl).2 hreach)]
  obtain ⟨n, hn, hmem⟩ := exists_node_of_mem_edges hs
  exact mem_of_postOrder_eq_append hacyclic hsplit hn hmem (hw.contains_of_reads hs)

end FieldGraph.Graph
