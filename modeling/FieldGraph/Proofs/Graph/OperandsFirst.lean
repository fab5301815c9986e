import FieldGraph.Proofs.Graph.Cycles
import FieldGraph.Proofs.Graph.PostOrder

/-!
# Operands first

The nodes under a root are listed with a stack on which a node stands in one of two ways: it is yet
to be looked at, or all it reads has been looked at and it is to be listed.  A node may wait on the
stack more than once; only the first look counts.

Where nothing leads to itself, the list holds what the root leads to, each node after all that it
reads.  With the bodies of composites these are all edges.  Without them, an edge is left out where
it leads to the node that is the body, even if it is wired to another port: a composite that has its
body for an argument is listed without this argument.
-/

namespace FieldGraph.Graph

open Relation

variable {g : Graph} {bodies : Bool} {root id : NodeId} {n : Node}

/-! ## The stack -/

/-- Working off a stack, the top of which comes first, lists nodes.  A node that is marked is listed;
any other one is entered, unless it is dead or has been entered, and then marked below what it
reads. -/
inductive Unstacks (g : Graph) (bodies : Bool) :
    List NodeId → List (NodeId × Bool) → List NodeId → Prop
  | nil {entered : List NodeId} : Unstacks g bodies entered [] []
  | list {entered out : List NodeId} {stack : List (NodeId × Bool)} {id : NodeId}
    (h : Unstacks g bodies entered stack out) :
    Unstacks g bodies entered ((id, true) :: stack) (id :: out)
  | dead {entered out : List NodeId} {stack : List (NodeId × Bool)} {id : NodeId}
    (hn : g.node? id = none) (h : Unstacks g bodies entered stack out) :
    Unstacks g bodies entered ((id, false) :: stack) out
  | again {entered out : List NodeId} {stack : List (NodeId × Bool)} {id : NodeId}
    (hid : id ∈ entered) (h : Unstacks g bodies entered stack out) :
    Unstacks g bodies entered ((id, false) :: stack) out
  | enter {entered out : List NodeId} {stack : List (NodeId × Bool)} {id : NodeId} {n : Node}
    (hn : g.node? id = some n) (hid : id ∉ entered)
    (h : Unstacks g bodies (id :: entered) (((followed bodies n).filter (· ∉ id :: entered)).map
      (·, false) ++ (id, true) :: stack) out) :
    Unstacks g bodies entered ((id, false) :: stack) out

/-- The stack alone decides what is listed. -/
theorem Unstacks.unique {entered out out' : List NodeId} {stack : List (NodeId × Bool)}
    (h : Unstacks g bodies entered stack out) (h' : Unstacks g bodies entered stack out') :
    out = out' := by
  induction h generalizing out' with
  | nil => cases h'; rfl
  | list _ ih =>
      cases h' with
      | list h' => rw [ih h']
  | dead hn _ ih =>
      cases h' with
      | dead _ h' | again _ h' => exact ih h'
      | enter hn' => cases hn.symm.trans hn'
  | again hid _ ih =>
      cases h' with
      | dead _ h' | again _ h' => exact ih h'
      | enter _ hid' => exact absurd hid hid'
  | enter hn hid _ ih =>
      cases h' with
      | dead hn' => cases hn.symm.trans hn'
      | again hid' => exact absurd hid' hid
      | enter hn' _ h' =>
          cases hn.symm.trans hn'
          exact ih h'

/-- The second stack is the first one without some of the nodes that have been entered and are not
marked. -/
inductive Thins (entered : List NodeId) : List (NodeId × Bool) → List (NodeId × Bool) → Prop
  | nil : Thins entered [] []
  | keep (t : NodeId × Bool) {stack stack' : List (NodeId × Bool)}
    (h : Thins entered stack stack') : Thins entered (t :: stack) (t :: stack')
  | drop {id : NodeId} {stack stack' : List (NodeId × Bool)} (hid : id ∈ entered)
    (h : Thins entered stack stack') : Thins entered ((id, false) :: stack) stack'

namespace Thins

variable {entered : List NodeId} {stack stack' : List (NodeId × Bool)}

theorem refl (stack : List (NodeId × Bool)) : Thins entered stack stack := by
  induction stack with
  | nil => exact .nil
  | cons t stack ih => exact .keep t ih

theorem enter (h : Thins entered stack stack') (id : NodeId) :
    Thins (id :: entered) stack stack' := by
  induction h with
  | nil => exact .nil
  | keep t _ ih => exact .keep t ih
  | drop hid _ ih => exact .drop (List.mem_cons_of_mem _ hid) ih

/-- Of the nodes that are put on a stack, those that have been entered may be left out. -/
theorem filter_append (ids : List NodeId) (h : Thins entered stack stack') :
    Thins entered (ids.map (·, false) ++ stack)
      ((ids.filter (· ∉ entered)).map (·, false) ++ stack') := by
  induction ids with
  | nil => exact h
  | cons id ids ih =>
      by_cases hid : id ∈ entered
      · rw [List.filter_cons_of_neg (by simpa using hid)]
        exact .drop hid ih
      · rw [List.filter_cons_of_pos (by simpa using hid)]
        exact .keep _ ih

end Thins

namespace Walk

/-- What a walk has on its stack: what is still to be looked at, and each open node below what is
looked at from there. -/
def State.stack (s : State) : List (NodeId × Bool) :=
  s.todo.map (·, false) ++ s.path.flatMap fun frame ↦ (frame.1, true) :: frame.2.map (·, false)

/-- A walk that no cycle stops finishes nodes as its stack lists them. -/
theorem unstacks_run (g : Graph) (bodies : Bool) (s : State)
    (hseen : ∀ i, s.seen.contains i ↔ i ∈ s.entered)
    {stack : List (NodeId × Bool)} (hstack : Thins s.entered s.stack stack) :
    ∃ out, (run g (followed bodies) false s).finished = s.finished.reverse ++ out ∧
      Unstacks g bodies s.entered stack out := by
  fun_induction run g (followed bodies) false s generalizing stack with
  | case1 =>
      cases hstack
      exact ⟨[], (List.append_nil _).symm, .nil⟩
  | case2 seen entered finished id rest path ih =>
      cases hstack with
      | keep _ hstack =>
          obtain ⟨out, heq, h⟩ := ih hseen hstack
          refine ⟨id :: out, ?_, .list h⟩
          rw [heq, List.reverse_cons, List.append_assoc]
          rfl
  | case3 seen entered finished path id todo hn ih =>
      cases hstack with
      | keep _ hstack =>
          obtain ⟨out, heq, h⟩ := ih hseen hstack
          exact ⟨out, heq, .dead hn h⟩
      | drop _ hstack => exact ih hseen hstack
  | case4 seen entered finished path id todo n hn hid ih =>
      have hid' : id ∉ entered := by
        rw [← hseen]
        simp [hid]
      cases hstack with
      | keep _ hstack =>
          obtain ⟨out, heq, h⟩ := ih
            (fun i ↦ by rw [NodeMap.contains_insert_iff, List.mem_cons, hseen, eq_comm])
            (.filter_append _ (.keep (id, true) (hstack.enter id)))
          exact ⟨out, heq, .enter hn hid' h⟩
      | drop hid _ => exact absurd hid hid'
  | case5 seen entered finished path id todo n hn hid hstop =>
      exact absurd hstop.1 Bool.false_ne_true
  | case6 seen entered finished path id todo n hn hid _ ih =>
      cases hstack with
      | keep _ hstack =>
          obtain ⟨out, heq, h⟩ := ih hseen hstack
          exact ⟨out, heq, .again ((hseen id).1 (by simpa using hid)) h⟩
      | drop _ hstack => exact ih hseen hstack

end Walk

theorem unstacks_iff {out : List NodeId} :
    Unstacks g bodies [] [(root, false)] out ↔ out = g.postOrder bodies root := by
  have h : Unstacks g bodies [] [(root, false)] (g.postOrder bodies root) := by
    obtain ⟨out, heq, h⟩ := Walk.unstacks_run g bodies (Walk.State.start [root])
      (fun i ↦ by simp [Walk.State.start, NodeMap.contains_eq]) (.refl _)
    rw [postOrder, walk]
    exact heq.symm ▸ h
  exact ⟨fun hout ↦ hout.unique h, fun hout ↦ hout ▸ h⟩

/-! ## The order -/

/-- A list of exactly the live nodes that a root leads to, each after all it leads to itself. -/
structure OperandsFirst (g : Graph) (r : NodeId → NodeId → Prop) (root : NodeId)
    (l : List NodeId) : Prop where
  nodup : l.Nodup
  mem_iff : ∀ id, id ∈ l ↔ g.contains id ∧ ReflTransGen r root id
  before : ∀ pre id post, l = pre ++ id :: post → ∀ s, r id s → s ∈ pre

/-- A node reads another one through a port, which is not that of a body unless bodies count. -/
def ReadsThrough (g : Graph) (bodies : Bool) (a b : NodeId) : Prop :=
  ∃ n port, g.node? a = some n ∧ n.port? port = some (some b) ∧ (port = .body → bodies = true)

/-- Between the nodes that a root leads to, two relations are the same. -/
theorem OperandsFirst.congr {r r' : NodeId → NodeId → Prop} {l : List NodeId}
    (h : g.OperandsFirst r root l)
    (hr : ∀ a b, ReflTransGen r' root a → (r a b ↔ r' a b)) : g.OperandsFirst r' root l := by
  have hreach (id : NodeId) : ReflTransGen r root id ↔ ReflTransGen r' root id := by
    constructor
    · intro hid
      induction hid with
      | refl => exact .refl
      | @tail a b _ hab ih => exact ih.tail ((hr a b ih).1 hab)
    · intro hid
      induction hid with
      | refl => exact .refl
      | @tail a b ha hab ih => exact ih.tail ((hr a b ha).2 hab)
  refine ⟨h.nodup, fun id ↦ by rw [h.mem_iff, hreach], fun pre id post hsplit s hs ↦ ?_⟩
  have hid : id ∈ l := hsplit ▸ List.mem_append_right _ List.mem_cons_self
  exact h.before pre id post hsplit s ((hr id s ((hreach id).1 ((h.mem_iff id).1 hid).2)).2 hs)

theorem leads_followed_iff (hn : g.node? id = some n) {s : NodeId} :
    g.Leads (followed bodies) id s ↔ s ∈ bodyFilter bodies n := by
  rw [Leads, ahead_of_node? hn, followed, List.mem_reverse]

theorem operandsFirst_leads (hw : g.WellFormed) (hacyclic : g.Acyclic) (hl : g.contains root) :
    g.OperandsFirst (g.Leads (followed bodies)) root (g.postOrder bodies root) := by
  have hunder (id : NodeId) (_ : ReflTransGen g.Reads root id) := hacyclic id
  have he := explores_postOrder g bodies root
  have hbefore {pre id post s} (hsplit : g.postOrder bodies root = pre ++ id :: post)
      (hs : g.Leads (followed bodies) id s) : s ∈ pre := by
    have hreads := reads_of_leads mem_edges_of_mem_followed hs
    obtain ⟨n, hn, -⟩ := exists_node_of_mem_edges hreads
    exact mem_of_postOrder_eq_append hunder hsplit hn ((leads_followed_iff hn).1 hs)
      (hw.contains_of_reads hreads)
  refine ⟨he.nodup, fun id ↦ ⟨fun hid ↦ ?_, fun ⟨_, hreach⟩ ↦ ?_⟩,
    fun pre id post hsplit s hs ↦ hbefore hsplit hs⟩
  · exact ⟨he.live id (he.entered_of_finished id hid), leads_of_mem_postOrder hid⟩
  · clear * - hreach hunder hl hbefore
    induction hreach with
    | refl => exact root_mem_postOrder hunder hl
    | tail _ hab ih =>
        obtain ⟨pre, post, hsplit⟩ := List.append_of_mem ih
        rw [hsplit]
        exact List.mem_append_left _ (hbefore hsplit hab)

/-! ## The edges that are followed -/

theorem mem_bodyFilter_false {s : NodeId} :
    s ∈ bodyFilter false n ↔ s ∈ n.edges ∧ n.body?.join ≠ some s := by
  cases hbody : n.body?.join with
  | none => simp [bodyFilter, hbody]
  | some body => simp [bodyFilter, hbody, @eq_comm _ body]

theorem readsThrough_iff (hn : g.node? id = some n) {s : NodeId} :
    g.ReadsThrough bodies id s ↔
      ∃ port, n.port? port = some (some s) ∧ (port = .body → bodies = true) := by
  constructor
  · rintro ⟨m, port, hm, hport⟩
    cases hn.symm.trans hm
    exact ⟨port, hport⟩
  · rintro ⟨port, hport⟩
    exact ⟨n, port, hn, hport⟩

theorem exists_node_of_readsThrough {s : NodeId} (h : g.ReadsThrough bodies id s) :
    ∃ n, g.node? id = some n := by
  obtain ⟨n, _, hn, -⟩ := h
  exact ⟨n, hn⟩

/-- With the bodies, all ports are followed. -/
theorem leads_followed_true_iff {s : NodeId} :
    g.Leads (followed true) id s ↔ g.ReadsThrough true id s := by
  cases hn : g.node? id with
  | none =>
      refine iff_of_false (fun h ↦ ?_) fun h ↦ ?_
      · simp [Leads, ahead, hn] at h
      · obtain ⟨n, hn'⟩ := exists_node_of_readsThrough h
        cases hn.symm.trans hn'
  | some n =>
      rw [leads_followed_iff hn, readsThrough_iff hn]
      change s ∈ n.edges ↔ _
      simp [Node.mem_edges_iff]

/-- Without the bodies, those ports are followed that are not wired to the body. -/
theorem leads_followed_false_iff {s : NodeId} :
    g.Leads (followed false) id s ↔
      g.ReadsThrough false id s ∧ ∀ n, g.node? id = some n → n.body?.join ≠ some s := by
  cases hn : g.node? id with
  | none =>
      refine iff_of_false (fun h ↦ ?_) fun ⟨h, _⟩ ↦ ?_
      · simp [Leads, ahead, hn] at h
      · obtain ⟨n, hn'⟩ := exists_node_of_readsThrough h
        cases hn.symm.trans hn'
  | some n =>
      rw [leads_followed_iff hn, mem_bodyFilter_false, Node.mem_edges_iff, readsThrough_iff hn]
      constructor
      · rintro ⟨⟨port, hport⟩, hbody⟩
        refine ⟨⟨port, hport, ?_⟩, fun m hm ↦ Option.some.inj hm ▸ hbody⟩
        rintro rfl
        exact absurd (congrArg Option.join hport) hbody
      · rintro ⟨⟨port, hport, -⟩, hbody⟩
        exact ⟨⟨port, hport⟩, hbody n rfl⟩

/-- The nodes under a root are listed without repetition, each after what it reads: with the bodies,
through all ports, and without them, through the ports that are not wired to the node that is the
body.  These are all ports but those of bodies, provided that no composite that is reached through
them has its body for an argument. -/
theorem postOrder_exact (hw : g.WellFormed) (hacyclic : g.Acyclic) (hl : g.contains root) :
    (∀ bodies out, Unstacks g bodies [] [(root, false)] out ↔ out = g.postOrder bodies root) ∧
    g.OperandsFirst (g.ReadsThrough true) root (g.postOrder true root) ∧
    g.OperandsFirst
      (fun a b ↦ g.ReadsThrough false a b ∧ ∀ n, g.node? a = some n → n.body?.join ≠ some b)
      root (g.postOrder false root) ∧
    ((∀ id n body, ReflTransGen (g.ReadsThrough false) root id → g.node? id = some n →
        n.body?.join = some body → ¬ g.ReadsThrough false id body) →
      g.OperandsFirst (g.ReadsThrough false) root (g.postOrder false root)) := by
  have hfalse : g.OperandsFirst (g.Leads (followed false)) root (g.postOrder false root) :=
    operandsFirst_leads hw hacyclic hl
  refine ⟨fun bodies out ↦ unstacks_iff, ?_, ?_, fun hapart ↦ ?_⟩
  · exact (operandsFirst_leads hw hacyclic hl).congr fun _ _ _ ↦ leads_followed_true_iff
  · exact hfalse.congr fun _ _ _ ↦ leads_followed_false_iff
  · refine hfalse.congr fun a b ha ↦ leads_followed_false_iff.trans (and_iff_left_of_imp ?_)
    exact fun hab n hn hbody ↦ hapart a n b ha hn hbody hab

/-- A composite whose body is another one, which is applied to the negation of the first one's
placeholder. -/
def appliedInside : List Action :=
  [.constant (.float 5), .compositeUnary, .compositeUnary, .unary .negate ⟨1⟩, .unary .abs ⟨3⟩,
    .setEdge ⟨4⟩ .input (some ⟨5⟩), .setBody ⟨4⟩ ⟨6⟩, .setBody ⟨2⟩ ⟨4⟩,
    .setEdge ⟨2⟩ .input (some ⟨0⟩)]

/-- Its body is left out, and the argument is not. -/
theorem postOrder_appliedInside :
    (after appliedInside).postOrder false ⟨4⟩ = [⟨1⟩, ⟨5⟩, ⟨4⟩] ∧
      (after appliedInside).OperandsFirst ((after appliedInside).ReadsThrough false) ⟨4⟩
        [⟨1⟩, ⟨5⟩, ⟨4⟩] := by
  have hlist : (after appliedInside).postOrder false ⟨4⟩ = [⟨1⟩, ⟨5⟩, ⟨4⟩] := by decide +kernel
  have hacyclic : (after appliedInside).Acyclic := @acyclic_of_findAnyCycle _ ⟨4⟩ (by decide +kernel)
  have hapart : ∀ id ∈ (after appliedInside).ids, ∀ n ∈ (after appliedInside).node? id,
      ∀ body ∈ n.body?.join, ∀ port ∈ n.ports, port ≠ .body → n.port? port ≠ some (some body) := by
    decide +kernel
  refine ⟨hlist, hlist ▸ (postOrder_exact (wellFormed_after _) hacyclic (by decide +kernel)).2.2.2
    fun id n body _ hn hbody hreads ↦ ?_⟩
  obtain ⟨port, hport, hne⟩ := (readsThrough_iff hn).1 hreads
  refine hapart id (mem_ids.2 (contains_of_node? hn)) n hn body hbody port ?_ ?_ hport
  · exact Node.mem_ports_iff.2 (Option.isSome_of_eq_some hport)
  · exact fun heq ↦ Bool.false_ne_true (hne heq)

/-- A composite whose body is another one, which is applied to its own body. -/
def appliedToBody : List Action :=
  [.constant (.float 5), .compositeUnary, .compositeUnary, .unary .negate ⟨1⟩,
    .setEdge ⟨4⟩ .input (some ⟨5⟩), .setBody ⟨4⟩ ⟨5⟩, .setBody ⟨2⟩ ⟨4⟩,
    .setEdge ⟨2⟩ .input (some ⟨0⟩)]

/-- The argument is left out with the body. -/
theorem not_operandsFirst_appliedToBody :
    (after appliedToBody).Acyclic ∧ (after appliedToBody).contains ⟨4⟩ ∧
      (after appliedToBody).ReadsThrough false ⟨4⟩ ⟨5⟩ ∧
      (after appliedToBody).postOrder false ⟨4⟩ = [⟨4⟩] ∧
      ¬ (after appliedToBody).OperandsFirst ((after appliedToBody).ReadsThrough false) ⟨4⟩
        ((after appliedToBody).postOrder false ⟨4⟩) := by
  have hlist : (after appliedToBody).postOrder false ⟨4⟩ = [⟨4⟩] := by decide +kernel
  have hreads : (after appliedToBody).ReadsThrough false ⟨4⟩ ⟨5⟩ :=
    ⟨.compositeUnary (some ⟨5⟩) (some ⟨5⟩) ⟨3⟩, .input, by decide +kernel, rfl, nofun⟩
  refine ⟨@acyclic_of_findAnyCycle _ ⟨4⟩ (by decide +kernel), by decide +kernel, hreads, hlist,
    fun h ↦ ?_⟩
  cases h.before [] ⟨4⟩ [] hlist ⟨5⟩ hreads

end FieldGraph.Graph
