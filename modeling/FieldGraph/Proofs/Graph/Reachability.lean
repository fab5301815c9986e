import FieldGraph.Proofs.Graph.Cycles

/-!
# Reachability

The nodes that a root leads to are found with a stack.  The node on top is dropped if it is dead or
has been found before; any other one is listed, and what it reads takes its place.  What is listed
is closed under edges, up to what had been found before, and so it is all that the stack leads to.

A walk keeps the same stack in pieces: what is still to be looked at from the innermost open node,
and below it what is left from each of the others.
-/

namespace FieldGraph.Graph

open Relation

variable {g : Graph} {next : Node → List NodeId} {found stack out : List NodeId} {root id : NodeId}

/-- Working off a stack, the top of which comes first, lists nodes in the order in which they are
found.  What has been found before is given. -/
inductive WorksOff (g : Graph) (next : Node → List NodeId) :
    List NodeId → List NodeId → List NodeId → Prop
  | nil {found : List NodeId} : WorksOff g next found [] []
  | dead {found stack out : List NodeId} {id : NodeId} (hn : g.node? id = none)
    (h : WorksOff g next found stack out) : WorksOff g next found (id :: stack) out
  | again {found stack out : List NodeId} {id : NodeId} (hid : id ∈ found)
    (h : WorksOff g next found stack out) : WorksOff g next found (id :: stack) out
  | list {found stack out : List NodeId} {id : NodeId} {n : Node} (hn : g.node? id = some n)
    (hid : id ∉ found) (h : WorksOff g next (id :: found) (next n ++ stack) out) :
    WorksOff g next found (id :: stack) (id :: out)

namespace WorksOff

/-! ## What is listed -/

theorem not_mem_found (h : WorksOff g next found stack out) : ∀ i ∈ out, i ∉ found := by
  induction h with
  | nil => exact fun _ hi ↦ nomatch hi
  | dead _ _ ih | again _ _ ih => exact ih
  | list _ hid _ ih =>
      intro i hi
      rcases List.mem_cons.1 hi with rfl | hi
      · exact hid
      · exact fun hmem ↦ ih i hi (List.mem_cons_of_mem _ hmem)

/-- No node is listed twice. -/
theorem nodup (h : WorksOff g next found stack out) : out.Nodup := by
  induction h with
  | nil => exact .nil
  | dead _ _ ih | again _ _ ih => exact ih
  | list _ _ h ih =>
      exact List.nodup_cons.2 ⟨fun hmem ↦ h.not_mem_found _ hmem List.mem_cons_self, ih⟩

theorem live (h : WorksOff g next found stack out) : ∀ i ∈ out, g.contains i := by
  induction h with
  | nil => exact fun _ hi ↦ nomatch hi
  | dead _ _ ih | again _ _ ih => exact ih
  | list hn _ _ ih => exact List.forall_mem_cons.2 ⟨contains_of_node? hn, ih⟩

/-- The stack leads to everything listed. -/
theorem reached (h : WorksOff g next found stack out) :
    ∀ i ∈ out, ∃ r ∈ stack, ReflTransGen (g.Leads next) r i := by
  induction h with
  | nil => exact fun _ hi ↦ nomatch hi
  | dead _ _ ih | again _ _ ih =>
      intro i hi
      obtain ⟨r, hr, hreach⟩ := ih i hi
      exact ⟨r, List.mem_cons_of_mem _ hr, hreach⟩
  | @list found stack out id n hn _ _ ih =>
      refine List.forall_mem_cons.2 ⟨⟨id, List.mem_cons_self, .refl⟩, fun i hi ↦ ?_⟩
      obtain ⟨r, hr, hreach⟩ := ih i hi
      rcases List.mem_append.1 hr with hr | hr
      · have hlead : g.Leads next id r := by rwa [Leads, ahead_of_node? hn]
        exact ⟨id, List.mem_cons_self, .head hlead hreach⟩
      · exact ⟨r, List.mem_cons_of_mem _ hr, hreach⟩

/-- What is found after a node has been listed is found after it was met. -/
private theorem mem_or_mem_cons {s : NodeId} (hs : s ∈ id :: found ∨ s ∈ out) :
    s ∈ found ∨ s ∈ id :: out := by
  rw [List.mem_cons, or_assoc, or_left_comm] at hs
  exact hs.imp_right List.mem_cons.2

/-- Everything live on the stack is listed or has been found before. -/
theorem mem_of_mem_stack (h : WorksOff g next found stack out) :
    ∀ i ∈ stack, g.contains i → i ∈ found ∨ i ∈ out := by
  induction h with
  | nil => exact fun _ hi ↦ nomatch hi
  | dead hn _ ih =>
      exact List.forall_mem_cons.2 ⟨fun hl ↦ absurd hl (not_contains_of_node? hn), ih⟩
  | again hid _ ih => exact List.forall_mem_cons.2 ⟨fun _ ↦ .inl hid, ih⟩
  | list _ _ _ ih =>
      exact List.forall_mem_cons.2 ⟨fun _ ↦ .inr List.mem_cons_self,
        fun i hi hl ↦ mem_or_mem_cons (ih i (List.mem_append_right _ hi) hl)⟩

/-- So is everything live that a listed node leads to. -/
theorem mem_of_leads (h : WorksOff g next found stack out) :
    ∀ i ∈ out, ∀ s, g.Leads next i s → g.contains s → s ∈ found ∨ s ∈ out := by
  induction h with
  | nil => exact fun _ hi ↦ nomatch hi
  | dead _ _ ih | again _ _ ih => exact ih
  | @list found stack out id n hn _ h ih =>
      refine List.forall_mem_cons.2 ⟨fun s hs hl ↦ mem_or_mem_cons ?_,
        fun i hi s hs hl ↦ mem_or_mem_cons (ih i hi s hs hl)⟩
      rw [Leads, ahead_of_node? hn] at hs
      exact h.mem_of_mem_stack s (List.mem_append_left _ hs) hl

/-- From nothing found on, exactly the live nodes are listed that the root leads to. -/
theorem mem_iff (h : WorksOff g next [] [root] out) :
    id ∈ out ↔ g.contains id ∧ ReflTransGen (g.Leads next) root id := by
  constructor
  · intro hid
    obtain ⟨r, hr, hreach⟩ := h.reached id hid
    exact ⟨h.live id hid, List.mem_singleton.1 hr ▸ hreach⟩
  · rintro ⟨hl, hreach⟩
    induction hreach with
    | refl => exact (h.mem_of_mem_stack root List.mem_cons_self hl).resolve_left List.not_mem_nil
    | @tail a b _ hab ih =>
        have ha : g.contains a := contains_of_reaches (.single hab) hl
        exact (h.mem_of_leads a (ih ha) b hab hl).resolve_left List.not_mem_nil

/-- The stack alone decides what is listed. -/
theorem unique {out' : List NodeId} (h : WorksOff g next found stack out)
    (h' : WorksOff g next found stack out') : out = out' := by
  induction h generalizing out' with
  | nil => cases h'; rfl
  | dead hn _ ih =>
      cases h' with
      | dead _ h' | again _ h' => exact ih h'
      | list hn' => cases hn.symm.trans hn'
  | again hid _ ih =>
      cases h' with
      | dead _ h' | again _ h' => exact ih h'
      | list _ hid' => exact absurd hid hid'
  | list hn hid _ ih =>
      cases h' with
      | dead hn' => cases hn.symm.trans hn'
      | again hid' => exact absurd hid' hid
      | list hn' _ h' =>
          cases hn.symm.trans hn'
          rw [ih h']

end WorksOff

/-! ## Walks -/

namespace Walk

/-- A walk that no cycle stops works off what it still has to look at, all open nodes together. -/
theorem worksOff_run (g : Graph) (next : Node → List NodeId) (s : State)
    (hseen : ∀ i, s.seen.contains i ↔ i ∈ s.entered) :
    ∃ out, (run g next false s).entered = s.entered.reverse ++ out ∧
      WorksOff g next s.entered (s.todo ++ s.path.flatMap Prod.snd) out := by
  fun_induction run g next false s with
  | case1 => exact ⟨[], (List.append_nil _).symm, .nil⟩
  | case2 seen entered finished id rest path ih => exact ih hseen
  | case3 seen entered finished path id todo hn ih =>
      obtain ⟨out, heq, h⟩ := ih hseen
      exact ⟨out, heq, .dead hn h⟩
  | case4 seen entered finished path id todo n hn hid ih =>
      obtain ⟨out, heq, h⟩ := ih fun i ↦ by
        rw [NodeMap.contains_insert_iff, List.mem_cons, hseen, eq_comm]
      refine ⟨id :: out, ?_, .list hn ?_ ?_⟩
      · rw [heq, List.reverse_cons, List.append_assoc]
        rfl
      · rw [← hseen]
        simp [hid]
      · simpa using h
  | case5 seen entered finished path id todo n hn hid hstop =>
      exact absurd hstop.1 Bool.false_ne_true
  | case6 seen entered finished path id todo n hn hid _ ih =>
      obtain ⟨out, heq, h⟩ := ih hseen
      exact ⟨out, heq, .again ((hseen id).1 (by simpa using hid)) h⟩

end Walk

/-- The search for what a root leads to is a stack that holds the root at first and is worked off. -/
theorem worksOff_reachable (g : Graph) (root : NodeId) :
    WorksOff g (fun n ↦ n.edges.reverse) [] [root] (g.reachable root) := by
  obtain ⟨out, heq, h⟩ := Walk.worksOff_run g (fun n ↦ n.edges.reverse)
    (Walk.State.start [root]) fun i ↦ by simp [Walk.State.start, NodeMap.contains_eq]
  rw [reachable, walk, heq]
  exact h

theorem leads_edges_reverse_iff {a b : NodeId} :
    g.Leads (fun n ↦ n.edges.reverse) a b ↔ g.Reads a b := by
  cases hn : g.node? a with
  | none => simp [Leads, Reads, ahead, edges, hn]
  | some n => rw [Leads, Reads, ahead_of_node? hn, edges_of_node? hn, List.mem_reverse]

/-- The search for what a root leads to ends, and is exact: it lists each live node that the root
leads to once and no other one, a live root first and nothing for a dead one.  The graph may have
cycles, and nodes may be met any number of times. -/
theorem reachable_exact (g : Graph) (root : NodeId) :
    (∀ out, WorksOff g (fun n ↦ n.edges.reverse) [] [root] out ↔ out = g.reachable root) ∧
    (g.reachable root).Nodup ∧
    (∀ id, id ∈ g.reachable root ↔ g.contains id ∧ ReflTransGen g.Reads root id) ∧
    (g.contains root → (g.reachable root).head? = some root) ∧
    (¬ g.contains root → g.reachable root = []) := by
  have h := worksOff_reachable g root
  refine ⟨fun out ↦ ⟨fun hout ↦ hout.unique h, fun hout ↦ hout ▸ h⟩, h.nodup, fun id ↦ ?_,
    fun hl ↦ ?_, fun hl ↦ ?_⟩
  · rw [h.mem_iff]
    have hreads : g.Leads (fun n ↦ n.edges.reverse) = g.Reads :=
      funext₂ fun _ _ ↦ propext leads_edges_reverse_iff
    rw [hreads]
  · cases hout : g.reachable root with
    | nil =>
        have hroot := h.mem_iff.2 ⟨hl, .refl⟩
        rw [hout] at hroot
        cases hroot
    | cons a out =>
        rw [hout] at h
        cases h with
        | dead hn => exact absurd hl (not_contains_of_node? hn)
        | again hid => cases hid
        | list => rfl
  · refine List.eq_nil_iff_forall_not_mem.2 fun id hid ↦ hl ?_
    obtain ⟨hlive, hreach⟩ := h.mem_iff.1 hid
    exact contains_of_reaches hreach hlive

/-- A composite in its own body, which adds the argument to itself. -/
example : (after [.constant (.float 1), .compositeUnary, .setEdge ⟨2⟩ .input (some ⟨0⟩),
    .binary .add ⟨0⟩ ⟨0⟩, .setEdge ⟨3⟩ .rhs (some ⟨2⟩), .setBody ⟨2⟩ ⟨3⟩]).reachable ⟨2⟩ =
      [⟨2⟩, ⟨3⟩, ⟨0⟩] := by decide +kernel

end FieldGraph.Graph
