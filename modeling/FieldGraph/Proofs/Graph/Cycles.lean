import FieldGraph.Proofs.Graph.Steps
import FieldGraph.Proofs.Graph.Walks
import Mathlib.Data.List.Chain

/-!
# The search for cycles

A search that is stopped has met a node of its open path.  The path from there on, in the order in
which it was entered, is a circuit: its nodes differ from each other, and each of them leads to the
next one.  A search that is not stopped has finished every node after all that the node leads to, so
that nothing it has entered leads to itself.
-/

namespace FieldGraph.Graph

open Relation

/-- Nodes that differ from each other, each of which stands in a relation to the next one and the
last one to the first. -/
structure Circuit (r : NodeId → NodeId → Prop) (nodes : List NodeId) : Prop where
  nodup : nodes.Nodup
  next : ∀ i a b, nodes[i]? = some a → nodes[(i + 1) % nodes.length]? = some b → r a b

variable {g : Graph} {next : Node → List NodeId} {roots : List NodeId}

/-- A chain that comes back to where it starts. -/
theorem Circuit.of_isChain {r : NodeId → NodeId → Prop} {id : NodeId} {rest : List NodeId}
    (hnodup : (id :: rest).Nodup) (hchain : (id :: rest ++ [id]).IsChain r) :
    Circuit r (id :: rest) where
  nodup := hnodup
  next i a b ha hb := by
    obtain ⟨hi, rfl⟩ := List.getElem?_eq_some_iff.1 ha
    have hstep := hchain.getElem i (by simpa using hi)
    rw [List.getElem_append_left hi] at hstep
    have hnext : (id :: rest ++ [id])[i + 1]? = some b := by
      rcases Nat.lt_or_ge (i + 1) (id :: rest).length with hlt | hge
      · rw [List.getElem?_append_left hlt, ← Nat.mod_eq_of_lt hlt]
        exact hb
      · obtain hlast : i + 1 = (id :: rest).length := by omega
        rw [hlast, Nat.mod_self] at hb
        rw [hlast, List.getElem?_concat_length]
        exact hb
    rwa [(List.getElem?_eq_some_iff.1 hnext).2] at hstep

/-! ## Stopped searches -/

namespace Walk

variable {stop : Bool} {entered finished todo : List NodeId} {path : List (NodeId × List NodeId)}
  {s : State}

/-- Each open node leads to the one entered from it, and the innermost one to what is looked at. -/
theorem Frames.isChain {id : NodeId}
    (h : Frames g next stop roots entered finished path (id :: todo)) :
    (id :: path.map Prod.fst).IsChain fun b a ↦ g.Leads next a b := by
  induction path generalizing id todo with
  | nil => exact .singleton id
  | cons frame path ih =>
      obtain ⟨⟨done, hahead, -⟩, h⟩ := h
      refine .cons_cons ?_ (ih h)
      change id ∈ g.ahead next frame.1
      simp [hahead]

/-- The path from an open node on, closed by an edge back to that node. -/
theorem Frames.circuit {id : NodeId}
    (h : Frames g next stop roots entered finished path (id :: todo))
    (hnodup : (path.map Prod.fst).Nodup) (hopen : id ∈ path.map Prod.fst) :
    Circuit (g.Leads next) (id :: ((path.map Prod.fst).takeWhile (· ≠ id)).reverse) := by
  obtain ⟨inner, outer, hsplit, hinner⟩ := List.eq_append_cons_of_mem hopen
  have htake : (path.map Prod.fst).takeWhile (· ≠ id) = inner := by
    rw [hsplit, List.takeWhile_append_of_pos (fun a ha ↦ by
      simpa using ne_of_mem_of_not_mem ha hinner), List.takeWhile_cons_of_neg (by simp),
      List.append_nil]
  rw [hsplit] at hnodup
  refine .of_isChain ?_ ?_
  · rw [htake, List.nodup_cons, List.mem_reverse, List.nodup_reverse]
    exact ⟨hinner, (List.nodup_append.1 hnodup).1⟩
  · have hchain : (id :: inner ++ [id]).IsChain fun b a ↦ g.Leads next a b := by
      refine h.isChain.prefix ⟨outer, ?_⟩
      simp [hsplit]
    rw [htake]
    simpa using List.isChain_reverse.2 hchain

/-- The cycle that a walk stops at is a circuit of nodes it has entered. -/
theorem circuit_run (h : Invariant g next stop roots s) {c : List NodeId}
    (hc : (run g next stop s).cycle = some c) :
    Circuit (g.Leads next) c ∧ ∀ id ∈ c, id ∈ (run g next stop s).entered := by
  fun_induction run g next stop s with
  | case1 => cases hc
  | case2 seen entered finished id rest path ih =>
      exact ih h.finish hc
  | case3 seen entered finished path id todo hn ih =>
      exact ih (h.skip fun hl ↦ absurd hl (not_contains_of_node? hn)) hc
  | case4 seen entered finished path id todo n hn hid ih =>
      exact ih (h.enter hn hid) hc
  | case5 seen entered finished path id todo n hn hid hstop =>
      cases hc
      refine ⟨h.frames.circuit (List.nodup_append.1 h.nodup).2.1 hstop.2, fun j hj ↦ ?_⟩
      refine List.mem_reverse.2 ((h.entered_iff j).2 (.inr ?_))
      rcases List.mem_cons.1 hj with rfl | hj
      · exact hstop.2
      · exact List.takeWhile_subset _ (List.mem_reverse.1 hj)
  | case6 seen entered finished path id todo n hn hid hstop ih =>
      refine ih (h.skip fun _ ↦ ⟨(h.seen_iff id).1 (by simpa using hid), fun hb hp ↦ ?_⟩) hc
      exact hstop ⟨hb, hp⟩

end Walk

theorem circuit_walk {stop : Bool} {c : List NodeId}
    (hc : (g.walk next stop roots).cycle = some c) :
    Circuit (g.Leads next) c ∧ ∀ id ∈ c, id ∈ (g.walk next stop roots).entered :=
  Walk.circuit_run (.start g next stop roots) hc

/-- A walk is never stopped by a cycle without nodes. -/
theorem ne_nil_of_cycle {stop : Bool} {c : List NodeId}
    (hc : (g.walk next stop roots).cycle = some c) : c ≠ [] := by
  obtain ⟨id, rest, rfl, -, -⟩ := (explores_walk g next stop roots).cycle c hc
  exact List.cons_ne_nil id rest

/-! ## Searches that are not stopped -/

/-- What no infinite chain starts from does not lead to itself. -/
theorem not_transGen_self_of_acc {r : NodeId → NodeId → Prop} {id : NodeId}
    (h : Acc (fun b a ↦ r a b) id) : ¬ TransGen r id id := by
  have irrefl {s : NodeId → NodeId → Prop} {a : NodeId} (ha : Acc s a) : ¬ s a a := by
    induction ha with
    | intro a _ ih => exact fun haa ↦ ih a haa haa
  exact fun hcycle ↦ irrefl h.transGen (transGen_swap.2 hcycle)

theorem acc_of_reaches {r : NodeId → NodeId → Prop} {a b : NodeId}
    (ha : Acc (fun b a ↦ r a b) a) (h : ReflTransGen r a b) : Acc (fun b a ↦ r a b) b := by
  induction h with
  | refl => exact ha
  | tail _ hr ih => exact ih.inv hr

/-- Nothing leads on from a dead node. -/
theorem acc_of_dead {id : NodeId} (h : ¬ g.contains id) :
    Acc (fun b a ↦ g.Leads next a b) id := by
  refine .intro id fun s hs ↦ ?_
  cases hn : g.node? id with
  | none => simp [Leads, ahead, hn] at hs
  | some n => exact absurd (contains_of_node? hn) h

/-- No infinite chain starts from what a search has finished. -/
theorem acc_of_finished {id : NodeId} (h : id ∈ (g.walk next true roots).finished) :
    Acc (fun b a ↦ g.Leads next a b) id := by
  -- what a node leads to has been finished before it
  have split (pre post : List NodeId) (id : NodeId)
      (hsplit : (g.walk next true roots).finished = pre ++ id :: post) :
      Acc (fun b a ↦ g.Leads next a b) id := by
    induction hk : pre.length using Nat.strongRecOn generalizing pre post id with
    | ind k ih =>
        subst hk
        refine .intro id fun s hs ↦ ?_
        by_cases hl : g.contains s
        · obtain ⟨pre', post', rfl⟩ := List.append_of_mem (finished_ordered hsplit s hs hl)
          refine ih pre'.length ?_ pre' (post' ++ id :: post) s ?_ rfl
          · rw [List.length_append, List.length_cons]
            omega
          · rw [hsplit, List.append_assoc]
            rfl
        · exact acc_of_dead hl
  obtain ⟨pre, post, hsplit⟩ := List.append_of_mem h
  exact split pre post id hsplit

/-- What leads to a live node is live. -/
theorem contains_of_reaches {a b : NodeId} (h : ReflTransGen (g.Leads next) a b)
    (hb : g.contains b) : g.contains a := by
  rcases ReflTransGen.cases_head h with rfl | ⟨c, hac, -⟩
  · exact hb
  · cases hn : g.node? a with
    | none => simp [Leads, ahead, hn] at hac
    | some n => exact contains_of_node? hn

theorem findCycle_eq_nil_iff_cycle {output : NodeId} {nodes : List NodeId} :
    g.findCycle output nodes = [] ↔ (g.walk Node.edges true (output :: nodes)).cycle = none := by
  unfold findCycle
  cases hc : (g.walk Node.edges true (output :: nodes)).cycle with
  | none => simp
  | some c => simp [ne_nil_of_cycle hc]

/-- Where a search finds no cycle, no infinite chain of edges starts from what it searched. -/
theorem acc_of_findCycle_eq_nil {output : NodeId} {nodes : List NodeId}
    (h : g.findCycle output nodes = []) {r : NodeId} (hr : r ∈ output :: nodes) :
    Acc (fun b a ↦ g.Reads a b) r := by
  by_cases hl : g.contains r
  · have hc := findCycle_eq_nil_iff_cycle.1 h
    exact acc_of_finished ((explores_walk g Node.edges true _).finished_of_root hc r hr hl)
  · exact show Acc (fun b a ↦ g.Leads Node.edges a b) r from acc_of_dead hl

/-- A search of the whole graph that finds no cycle has missed none. -/
theorem acyclic_of_findAnyCycle {output : NodeId} (h : g.findAnyCycle output = []) :
    g.Acyclic := by
  intro id hcycle
  obtain ⟨s, hs, -⟩ := TransGen.head'_iff.1 hcycle
  obtain ⟨n, hn, -⟩ := exists_node_of_mem_edges hs
  have hmem : id ∈ output :: g.ids := List.mem_cons_of_mem _ (mem_ids.2 (contains_of_node? hn))
  exact not_transGen_self_of_acc (acc_of_findCycle_eq_nil h hmem) hcycle

/-- A search finds no cycle where there is none. -/
theorem Acyclic.findCycle_eq_nil (h : g.Acyclic) (output : NodeId) (nodes : List NodeId) :
    g.findCycle output nodes = [] :=
  findCycle_eq_nil_iff_cycle.2 (walk_cycle_eq_none (fun _ _ id _ _ ↦ h id) true)

/-- What a search finds is a circuit of live nodes. -/
theorem circuit_findCycle {output : NodeId} {nodes : List NodeId}
    (h : g.findCycle output nodes ≠ []) :
    Circuit g.Reads (g.findCycle output nodes) ∧
      ∀ id ∈ g.findCycle output nodes, g.contains id := by
  obtain ⟨c, hc⟩ := Option.ne_none_iff_exists'.1 (mt findCycle_eq_nil_iff_cycle.2 h)
  have hfound : g.findCycle output nodes = c := congrArg (Option.getD · []) hc
  obtain ⟨hcircuit, hentered⟩ := circuit_walk hc
  rw [hfound]
  exact ⟨hcircuit, fun id hid ↦ (explores_walk g Node.edges true _).live id (hentered id hid)⟩

/-- The search from an output and a list of nodes is exact.  It finds nothing if and only if none of
the live ones among them leads to a cycle of edges, and otherwise it finds a circuit of live nodes
that they lead to.  Nothing is asked of the listed nodes: they may be dead, missing or listed more
than once. -/
theorem findCycle_exact (g : Graph) (output : NodeId) (nodes : List NodeId) :
    let c := g.findCycle output nodes
    (c = [] ↔ ∀ r ∈ output :: nodes, g.contains r →
      ∀ id, ReflTransGen g.Reads r id → ¬ TransGen g.Reads id id) ∧
    (c ≠ [] → Circuit g.Reads c ∧ ∀ id ∈ c, g.contains id ∧
      ∃ r ∈ output :: nodes, g.contains r ∧ ReflTransGen g.Reads r id) := by
  intro c
  have he := explores_walk g Node.edges true (output :: nodes)
  constructor
  · constructor
    · intro hnil r hr _ id hreach
      exact not_transGen_self_of_acc (acc_of_reaches (acc_of_findCycle_eq_nil hnil hr) hreach)
    · intro hnone
      refine findCycle_eq_nil_iff_cycle.2 (walk_cycle_eq_none (fun r hr id hl hreach ↦ ?_) true)
      exact hnone r hr (contains_of_reaches hreach hl) id hreach
  · intro hne
    obtain ⟨d, hd⟩ := Option.ne_none_iff_exists'.1 (mt findCycle_eq_nil_iff_cycle.2 hne)
    have hcd : c = d := by
      change (g.walk Node.edges true (output :: nodes)).cycle.getD [] = d
      rw [hd]
      rfl
    obtain ⟨hcircuit, hentered⟩ := circuit_walk hd
    rw [hcd]
    refine ⟨hcircuit, fun id hid ↦ ?_⟩
    have hlive := he.live id (hentered id hid)
    obtain ⟨r, hr, hreach⟩ := he.reached id (hentered id hid)
    exact ⟨hlive, r, hr, contains_of_reaches hreach hlive, hreach⟩

/-- A composite in its own body, searched from a missing output and from its body twice. -/
example : (after [.compositeUnary, .output ⟨1⟩, .setBody ⟨1⟩ ⟨2⟩]).findCycle ⟨7⟩ [⟨2⟩, ⟨2⟩] =
    [⟨2⟩, ⟨1⟩] := by decide +kernel

end FieldGraph.Graph
