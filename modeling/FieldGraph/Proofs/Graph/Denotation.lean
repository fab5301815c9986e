import FieldGraph.Proofs.Graph.Walks
import FieldGraph.Proofs.Node
import Mathlib.Data.List.Forall2

/-!
# Readings of a graph

The values of a graph and the shapes of its values follow the same recursion: an operation works on
what its operands denote, a composite denotes what its body does where its placeholders stand for
its arguments, and a parameter that nothing stands for is looked up by its position.  A reading says
what is denoted; the recursion is the same for all of them.  What a node denotes depends on nothing
but the nodes it leads to.
-/

namespace FieldGraph.Graph

open Relation

/-- What the parameters and the operations of a graph denote.  An operation does not depend on where
its edges lead. -/
structure Reading (α : Type) where
  /-- A parameter, by its position and declared type, denotes at most one thing. -/
  parameter : Nat → ValueType → α → Prop
  apply : Node → List α → Option α
  parameter_unique : ∀ {index t x y}, parameter index t x → parameter index t y → x = y
  apply_mapEdges : ∀ f n xs, apply (n.mapEdges f) xs = apply n xs

/-- What the placeholders stand for. -/
abbrev Env (α : Type) := NodeId → Option α

namespace Env

variable {α : Type}

def empty : Env α := fun _ ↦ none

/-- Let placeholders stand for arguments. -/
def bind (env : Env α) (ps : List NodeId) (xs : List α) : Env α :=
  fun p ↦ ((ps.zip xs).lookup p).or (env p)

theorem bind_of_not_mem {env : Env α} {ps : List NodeId} {xs : List α} {p : NodeId} (h : p ∉ ps) :
    env.bind ps xs p = env p := by
  have hnone : (ps.zip xs).lookup p = none := by
    rw [List.lookup_eq_none_iff]
    intro a ha
    simpa using (ne_of_mem_of_not_mem (List.of_mem_zip ha).1 h).symm
  rw [bind, hnone, Option.none_or]

theorem of_bind {env : Env α} {ps : List NodeId} {xs : List α} {p : NodeId} {x : α}
    (h : env.bind ps xs p = some x) : (p, x) ∈ ps.zip xs ∨ env p = some x := by
  rcases Option.or_eq_some_iff.1 h with h | ⟨-, h⟩
  · obtain ⟨l, l', heq, -⟩ := List.lookup_eq_some_iff.1 h
    exact .inl (heq ▸ List.mem_append_right _ List.mem_cons_self)
  · exact .inr h

/-- Different placeholders stand for the arguments in their places. -/
theorem bind_of_getElem? {env : Env α} {ps : List NodeId} {xs : List α} (hps : ps.Nodup) {i : Nat}
    {p : NodeId} {x : α} (hp : ps[i]? = some p) (hx : xs[i]? = some x) :
    env.bind ps xs p = some x := by
  have hlookup : (ps.zip xs).lookup p = some x := by
    induction ps generalizing xs i with
    | nil => cases hp
    | cons q ps ih =>
        cases xs with
        | nil => cases hx
        | cons y xs =>
            rw [List.zip_cons_cons, List.lookup_cons]
            cases i with
            | zero =>
                cases hp
                cases hx
                rw [beq_self_eq_true]
            | succ i =>
                rw [List.getElem?_cons_succ] at hp hx
                have hne : p ≠ q :=
                  ne_of_mem_of_not_mem (List.mem_of_getElem? hp) (List.nodup_cons.1 hps).1
                rw [beq_eq_false_iff_ne.2 hne]
                exact ih (List.nodup_cons.1 hps).2 hp hx
  rw [bind, hlookup, Option.some_or]

end Env

variable {α : Type}

/-- What a parameter denotes: what it stands for, or what is found at its position. -/
def Reading.Input (R : Reading α) (env : Env α) (id : NodeId) (index : Nat) (t : ValueType)
    (x : α) : Prop :=
  match env id with
  | some y => y = x
  | none => R.parameter index t x

theorem Reading.Input.eq {R : Reading α} {env : Env α} {id : NodeId} {index : Nat} {t : ValueType}
    {x y : α} (hx : R.Input env id index t x) (hy : R.Input env id index t y) : x = y := by
  unfold Reading.Input at hx hy
  split at hx
  next h =>
    rw [h] at hy
    exact hx.symm.trans hy
  next h =>
    rw [h] at hy
    exact R.parameter_unique hx hy

/-- What a node denotes in a reading, under what the placeholders stand for. -/
inductive Denotes (g : Graph) (R : Reading α) : Env α → NodeId → α → Prop
  | parameter {env : Env α} {id : NodeId} {index : Nat} {t : ValueType} {x : α}
      (hn : g.node? id = some (.parameter index t)) (hx : R.Input env id index t x) :
      Denotes g R env id x
  | operation {env : Env α} {id : NodeId} {n : Node} {operands : List (NodeId × α)} {x : α}
      (hn : g.node? id = some n) (hp : n.isParameter = false) (hc : n.isComposite = false)
      (hs : n.sources = operands.map fun o ↦ some o.1)
      (ho : ∀ o ∈ operands, Denotes g R env o.1 o.2)
      (hx : R.apply n (operands.map Prod.snd) = some x) : Denotes g R env id x
  | composite {env : Env α} {id body : NodeId} {n : Node} {arguments : List (NodeId × α)} {x : α}
      (hn : g.node? id = some n) (hbody : n.body?.join = some body)
      (hs : n.sources = arguments.map fun a ↦ some a.1)
      (ha : ∀ a ∈ arguments, Denotes g R env a.1 a.2)
      (hx : Denotes g R (env.bind n.placeholders (arguments.map Prod.snd)) body x) :
      Denotes g R env id x

variable {g : Graph} {R : Reading α} {env env' : Env α} {id : NodeId} {x y : α}

/-! ## One node -/

/-- Each edge is wired to a node that denotes what is listed for it. -/
def Supplied (g : Graph) (R : Reading α) (env : Env α) : List Edge → List α → Prop :=
  List.Forall₂ fun e x ↦ ∃ s, e = some s ∧ g.Denotes R env s x

theorem supplied_iff {es : List Edge} {xs : List α} :
    g.Supplied R env es xs ↔ ∃ os : List (NodeId × α), es = os.map (fun o ↦ some o.1) ∧
      xs = os.map Prod.snd ∧ ∀ o ∈ os, g.Denotes R env o.1 o.2 := by
  constructor
  · intro h
    induction h with
    | nil => exact ⟨[], rfl, rfl, fun _ ho ↦ by cases ho⟩
    | @cons e x _ _ hx _ ih =>
        obtain ⟨s, rfl, hs⟩ := hx
        obtain ⟨os, rfl, rfl, hos⟩ := ih
        refine ⟨(s, x) :: os, rfl, rfl, fun o ho ↦ ?_⟩
        rcases List.mem_cons.1 ho with rfl | ho
        · exact hs
        · exact hos o ho
  · rintro ⟨os, rfl, rfl, hos⟩
    rw [Supplied, List.forall₂_map_left_iff, List.forall₂_map_right_iff, List.forall₂_same]
    exact fun o ho ↦ ⟨o.1, rfl, hos o ho⟩

theorem denotes_parameter_iff {index : Nat} {t : ValueType}
    (hn : g.node? id = some (.parameter index t)) :
    g.Denotes R env id x ↔ R.Input env id index t x := by
  constructor
  · intro h
    cases h with
    | parameter hn' hx => cases hn.symm.trans hn'; exact hx
    | operation hn' hp => cases hn.symm.trans hn'; cases hp
    | composite hn' hbody => cases hn.symm.trans hn'; cases hbody
  · exact .parameter hn

theorem denotes_operation_iff {n : Node} (hn : g.node? id = some n) (hp : n.isParameter = false)
    (hc : n.isComposite = false) :
    g.Denotes R env id x ↔ ∃ xs, g.Supplied R env n.sources xs ∧ R.apply n xs = some x := by
  constructor
  · intro h
    cases h with
    | parameter hn' => cases hn.symm.trans hn'; cases hp
    | operation hn' _ _ hs ho hx =>
        cases hn.symm.trans hn'
        exact ⟨_, supplied_iff.2 ⟨_, hs, rfl, ho⟩, hx⟩
    | composite hn' hbody =>
        cases hn.symm.trans hn'
        rw [Node.isComposite_of_body? hbody] at hc
        cases hc
  · rintro ⟨xs, hxs, hx⟩
    obtain ⟨os, hs, rfl, ho⟩ := supplied_iff.1 hxs
    exact .operation hn hp hc hs ho hx

theorem denotes_composite_iff {n : Node} {body : NodeId} (hn : g.node? id = some n)
    (hbody : n.body?.join = some body) :
    g.Denotes R env id x ↔ ∃ xs, g.Supplied R env n.sources xs ∧
      g.Denotes R (env.bind n.placeholders xs) body x := by
  constructor
  · intro h
    cases h with
    | parameter hn' => cases hn.symm.trans hn'; cases hbody
    | operation hn' _ hc =>
        cases hn.symm.trans hn'
        rw [Node.isComposite_of_body? hbody] at hc
        cases hc
    | composite hn' hbody' hs ha hx =>
        cases hn.symm.trans hn'
        cases hbody.symm.trans hbody'
        exact ⟨_, supplied_iff.2 ⟨_, hs, rfl, ha⟩, hx⟩
  · rintro ⟨xs, hxs, hx⟩
    obtain ⟨as, hs, rfl, ha⟩ := supplied_iff.1 hxs
    exact .composite hn hbody hs ha hx

/-- A composite without a body denotes nothing. -/
theorem not_denotes_of_body?_eq_none {n : Node} (hn : g.node? id = some n) (hc : n.isComposite)
    (hbody : n.body?.join = none) : ¬ g.Denotes R env id x := by
  intro h
  cases h with
  | parameter hn' => cases hn.symm.trans hn'; cases hc
  | operation hn' _ hc' =>
      cases hn.symm.trans hn'
      rw [hc] at hc'
      cases hc'
  | composite hn' hbody' =>
      cases hn.symm.trans hn'
      rw [hbody] at hbody'
      cases hbody'

/-! ## Whole graphs -/

/-- Only one list can be supplied, where each source denotes only one thing. -/
theorem Supplied.eq_map {es : List Edge} {xs : List α} {os : List (NodeId × α)}
    (h : g.Supplied R env es xs) (hs : es = os.map fun o ↦ some o.1)
    (ho : ∀ o ∈ os, ∀ {y}, g.Denotes R env o.1 y → o.2 = y) : os.map Prod.snd = xs := by
  subst hs
  rw [Supplied, List.forall₂_map_left_iff] at h
  induction h with
  | nil => rfl
  | @cons o x os xs hx _ ih =>
      obtain ⟨s, hs, hx⟩ := hx
      cases hs
      rw [List.map_cons, ho o List.mem_cons_self hx,
        ih fun o' ho' ↦ ho o' (List.mem_cons_of_mem _ ho')]

/-- A node denotes at most one thing. -/
theorem Denotes.eq (h : g.Denotes R env id x) (h' : g.Denotes R env id y) : x = y := by
  induction h generalizing y with
  | parameter hn hx => exact hx.eq ((denotes_parameter_iff hn).1 h')
  | operation hn hp hc hs ho hx ih =>
      obtain ⟨ys, hys, hy⟩ := (denotes_operation_iff hn hp hc).1 h'
      rw [hys.eq_map hs fun o ho _ ↦ ih o ho, hy] at hx
      exact (Option.some.inj hx).symm
  | composite hn hbody hs ha _ iha ihx =>
      obtain ⟨ys, hys, hy⟩ := (denotes_composite_iff hn hbody).1 h'
      rw [hys.eq_map hs fun a ha _ ↦ iha a ha] at ihx
      exact ihx hy

theorem reads_of_mem_sources {n : Node} (hn : g.node? id = some n) {s : NodeId}
    (hs : some s ∈ n.sources) : g.Reads id s := by
  rw [Reads, edges_of_node? hn]
  exact Node.mem_edges_of_mem_operands (Node.mem_operands_iff.2 hs)

theorem reads_body {n : Node} (hn : g.node? id = some n) {body : NodeId}
    (hbody : n.body?.join = some body) : g.Reads id body := by
  rw [Reads, edges_of_node? hn]
  exact Node.mem_edges_of_port? (Option.join_eq_some_iff.1 hbody)

theorem Denotes.exists_node? (h : g.Denotes R env id x) : ∃ n, g.node? id = some n := by
  cases h with
  | parameter hn | operation hn | composite hn => exact ⟨_, hn⟩

/-- All that is read for its value is wired, and denotes something. -/
theorem Denotes.exists_of_mem_sources (h : g.Denotes R env id x) {n : Node}
    (hn : g.node? id = some n) {e : Edge} (he : e ∈ n.sources) :
    ∃ s y, e = some s ∧ g.Denotes R env s y := by
  have source {os : List (NodeId × α)} (hs : n.sources = os.map fun o ↦ some o.1)
      (ho : ∀ o ∈ os, g.Denotes R env o.1 o.2) : ∃ s y, e = some s ∧ g.Denotes R env s y := by
    rw [hs] at he
    obtain ⟨o, hmem, rfl⟩ := List.mem_map.1 he
    exact ⟨o.1, o.2, rfl, ho o hmem⟩
  cases h with
  | parameter hn' =>
      cases hn.symm.trans hn'
      cases he
  | operation hn' _ _ hs ho =>
      cases hn.symm.trans hn'
      exact source hs ho
  | composite hn' _ hs ha =>
      cases hn.symm.trans hn'
      exact source hs ha

/-- A reading may find more for the parameters. -/
theorem Denotes.weaken {R' : Reading α} (h : g.Denotes R env id x)
    (hp : ∀ {index t x}, R.parameter index t x → R'.parameter index t x)
    (ha : R'.apply = R.apply) : g.Denotes R' env id x := by
  induction h with
  | parameter hn hx =>
      refine .parameter hn ?_
      unfold Reading.Input at hx ⊢
      split at hx
      · exact hx
      · exact hp hx
  | operation hn hpar hc hs _ hx ih => exact .operation hn hpar hc hs ih (ha ▸ hx)
  | composite hn hbody hs _ _ iha ihx => exact .composite hn hbody hs iha ihx

/-- What a node denotes depends on nothing but the nodes it leads to. -/
theorem Denotes.congr (h : g.Denotes R env id x)
    (he : ∀ p, ReflTransGen g.Reads id p → env p = env' p) : g.Denotes R env' id x := by
  have source {id : NodeId} {n : Node} {os : List (NodeId × α)} (hn : g.node? id = some n)
      (hs : n.sources = os.map fun o ↦ some o.1) {o : NodeId × α} (ho : o ∈ os) :
      g.Reads id o.1 :=
    reads_of_mem_sources hn (hs ▸ List.mem_map.2 ⟨o, ho, rfl⟩)
  induction h generalizing env' with
  | @parameter env id index t x hn hx =>
      refine .parameter hn ?_
      rwa [Reading.Input, ← he id .refl]
  | operation hn hp hc hs ho hx ih =>
      exact .operation hn hp hc hs
        (fun o ho ↦ ih o ho fun p hp ↦ he p (.head (source hn hs ho) hp)) hx
  | composite hn hbody hs ha hx iha ihx =>
      refine .composite hn hbody hs
        (fun a ha ↦ iha a ha fun p hp ↦ he p (.head (source hn hs ha) hp)) (ihx fun p hp ↦ ?_)
      rw [Env.bind, Env.bind, he p (.head (reads_body hn hbody) hp)]

theorem denotes_congr (he : ∀ p, ReflTransGen g.Reads id p → env p = env' p) :
    g.Denotes R env id x ↔ g.Denotes R env' id x :=
  ⟨fun h ↦ h.congr he, fun h ↦ h.congr fun p hp ↦ (he p hp).symm⟩

/-- No infinite chain of edges starts from what denotes something. -/
theorem Denotes.acc (h : g.Denotes R env id x) : Acc (fun b a ↦ g.Reads a b) id := by
  have intro {id : NodeId} {n : Node} (hn : g.node? id = some n)
      (h : ∀ s ∈ n.edges, Acc (fun b a ↦ g.Reads a b) s) : Acc (fun b a ↦ g.Reads a b) id :=
    .intro id fun s hs ↦ h s (by rwa [Reads, edges_of_node? hn] at hs)
  have source {n : Node} {os : List (NodeId × α)} (hs : n.sources = os.map fun o ↦ some o.1)
      (ih : ∀ o ∈ os, Acc (fun b a ↦ g.Reads a b) o.1) {s : NodeId} (hmem : s ∈ n.operands) :
      Acc (fun b a ↦ g.Reads a b) s := by
    rw [Node.mem_operands_iff, hs] at hmem
    obtain ⟨o, ho, heq⟩ := List.mem_map.1 hmem
    cases heq
    exact ih o ho
  induction h with
  | parameter hn => exact intro hn fun _ hs ↦ by cases hs
  | operation hn _ hc hs _ _ ih =>
      exact intro hn fun s hmem ↦ source hs ih (by rwa [Node.operands_of_not_composite hc])
  | composite hn hbody hs _ _ iha ihx =>
      refine intro hn fun s hmem ↦ ?_
      rw [Node.edges_eq_operands_append, hbody] at hmem
      rcases List.mem_append.1 hmem with hmem | hmem
      · exact source hs iha hmem
      · cases List.mem_singleton.1 hmem
        exact ihx

end FieldGraph.Graph
