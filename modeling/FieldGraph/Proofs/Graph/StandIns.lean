import FieldGraph.Proofs.Graph.Denotation
import FieldGraph.Proofs.Graph.Growth
import Mathlib.Data.Option.Basic

/-!
# Stand-ins

A node stands in for another one if it denotes the same in every reading, once its placeholders
stand for what those of the other node do.  A node that leads to none of the placeholders in
question stands in for itself.  Apart from that a stand-in is built like the node that it stands in
for, out of stand-ins for what the node reads.
-/

namespace FieldGraph.Graph

open Relation

variable {g : Graph} {names extra : List (NodeId × NodeId)} {id id' : NodeId} {n n' : Node}

/-! ## Environments -/

/-- The placeholders on the right of the listed pairs stand for what those on the left do, and all
others for the same. -/
structure Agree {α : Type} (names : List (NodeId × NodeId)) (env env' : Env α) : Prop where
  bound : ∀ a ∈ names, ∃ x, env a.1 = some x ∧ env' a.2 = some x
  free : ∀ p, (∀ a ∈ names, p ≠ a.1 ∧ p ≠ a.2) → env p = env' p

theorem agree_nil {α : Type} {env env' : Env α} : Agree [] env env' ↔ env = env' :=
  ⟨fun h ↦ funext fun p ↦ h.free p fun _ ha ↦ (by cases ha),
    fun h ↦ ⟨fun _ ha ↦ (by cases ha), fun p _ ↦ congrFun h p⟩⟩

/-- Environments that bind different placeholders to the same arguments still agree. -/
theorem Agree.bind {α : Type} {env env' : Env α} (h : Agree names env env') {ps ps' : List NodeId}
    {xs : List α} (hps : ps.Nodup) (hps' : ps'.Nodup) (hlen : ps.length = xs.length)
    (hlen' : ps'.length = xs.length) (hnames : ∀ a ∈ names, a.1 ∉ ps ∧ a.2 ∉ ps') :
    Agree (names ++ ps.zip ps') (env.bind ps xs) (env'.bind ps' xs) where
  bound a ha := by
    rcases List.mem_append.1 ha with ha | ha
    · rw [Env.bind_of_not_mem (hnames a ha).1, Env.bind_of_not_mem (hnames a ha).2]
      exact h.bound a ha
    · obtain ⟨i, hi⟩ := List.mem_iff_getElem?.1 ha
      obtain ⟨hp, hp'⟩ := List.getElem?_zip_eq_some.1 hi
      have hlt : i < xs.length := hlen ▸ (List.getElem?_eq_some_iff.1 hp).1
      have hx : xs[i]? = some xs[i] := List.getElem?_eq_getElem hlt
      exact ⟨xs[i], Env.bind_of_getElem? hps hp hx, Env.bind_of_getElem? hps' hp' hx⟩
  free p hp := by
    have hzip (a : NodeId × NodeId) (ha : a ∈ ps.zip ps') : p ≠ a.1 ∧ p ≠ a.2 :=
      hp a (List.mem_append_right _ ha)
    have hfst : (ps.zip ps').map Prod.fst = ps := List.map_fst_zip (by omega)
    have hsnd : (ps.zip ps').map Prod.snd = ps' := List.map_snd_zip (by omega)
    have hleft : p ∉ ps := fun hmem ↦ by
      rw [← hfst] at hmem
      obtain ⟨a, ha, rfl⟩ := List.mem_map.1 hmem
      exact (hzip a ha).1 rfl
    have hright : p ∉ ps' := fun hmem ↦ by
      rw [← hsnd] at hmem
      obtain ⟨a, ha, rfl⟩ := List.mem_map.1 hmem
      exact (hzip a ha).2 rfl
    rw [Env.bind_of_not_mem hleft, Env.bind_of_not_mem hright]
    exact h.free p fun a ha ↦ hp a (List.mem_append_left _ ha)

/-! ## Nodes that denote the same -/

/-- The second node denotes what the first one does, under names for their placeholders. -/
structure Matches (g : Graph) (names : List (NodeId × NodeId)) (id id' : NodeId) : Prop where
  iff : ∀ {α : Type} (R : Reading α) {env env' : Env α}, Agree names env env' →
    ∀ x, g.Denotes R env id x ↔ g.Denotes R env' id' x

namespace Matches

/-- A node that leads to none of the placeholders named. -/
theorem of_avoids (h : ∀ p, ReflTransGen g.Reads id p → ∀ a ∈ names, p ≠ a.1 ∧ p ≠ a.2) :
    g.Matches names id id :=
  ⟨fun _ _ _ he _ ↦ denotes_congr fun p hp ↦ he.free p (h p hp)⟩

/-- More names do not matter to a node that leads to none of their placeholders. -/
theorem append (h : g.Matches names id id')
    (havoids : ∀ p, ReflTransGen g.Reads id p → ∀ a ∈ extra, p ≠ a.1 ∧ p ≠ a.2)
    (hapart : ∀ a ∈ names, ∀ b ∈ extra, a.1 ≠ b.1 ∧ a.1 ≠ b.2) :
    g.Matches (names ++ extra) id id' := by
  refine ⟨fun R env env' he x ↦ ?_⟩
  -- what is named in addition stands for the same on both sides
  classical
  let env₀ : Env _ := fun p ↦ if ∀ a ∈ extra, p ≠ a.1 ∧ p ≠ a.2 then env p else env' p
  have henv₀ : Agree names env₀ env' := by
    refine ⟨fun a ha ↦ ?_, fun p hp ↦ ?_⟩
    · rw [show env₀ a.1 = env a.1 from if_pos (hapart a ha)]
      exact he.bound a (List.mem_append_left _ ha)
    · by_cases hmore : ∀ a ∈ extra, p ≠ a.1 ∧ p ≠ a.2
      · rw [show env₀ p = env p from if_pos hmore]
        exact he.free p fun a ha ↦ (List.mem_append.1 ha).elim (hp a) (hmore a)
      · exact if_neg hmore
  rw [← h.iff R henv₀ x]
  exact denotes_congr fun p hp ↦ (if_pos (havoids p hp)).symm

/-- A placeholder and its name. -/
theorem placeholder {a : NodeId × NodeId} (ha : a ∈ names) {index index' : Nat} {t t' : ValueType}
    (hn : g.node? a.1 = some (.parameter index t))
    (hn' : g.node? a.2 = some (.parameter index' t')) : g.Matches names a.1 a.2 := by
  refine ⟨fun R env env' he x ↦ ?_⟩
  obtain ⟨y, hy, hy'⟩ := he.bound a ha
  rw [denotes_parameter_iff hn, denotes_parameter_iff hn', Reading.Input, Reading.Input, hy, hy']

/-- Where stand-ins are wired, the same is supplied. -/
theorem supplied {f : NodeId → NodeId} {es : List Edge}
    (h : ∀ s, some s ∈ es → g.Matches names s (f s)) {α : Type} (R : Reading α) {env env' : Env α}
    (he : Agree names env env') (xs : List α) :
    g.Supplied R env es xs ↔ g.Supplied R env' (es.map (Option.map f)) xs := by
  rw [Supplied, Supplied, List.forall₂_map_left_iff, List.forall₂_iff_zip, List.forall₂_iff_zip]
  refine and_congr_right fun _ ↦ forall_congr' fun e ↦ forall_congr' fun x ↦
    forall_congr' fun hmem ↦ ?_
  cases e with
  | none => simp
  | some s =>
      have hs := (h s (List.of_mem_zip hmem).1).iff R he x
      simpa using hs

/-- An operation on stand-ins. -/
theorem operation {f : NodeId → NodeId} (hn : g.node? id = some n)
    (hn' : g.node? id' = some (n.mapEdges (Option.map f))) (hp : n.isParameter = false)
    (hc : n.isComposite = false) (h : ∀ s, some s ∈ n.sources → g.Matches names s (f s)) :
    g.Matches names id id' := by
  refine ⟨fun R env env' he x ↦ ?_⟩
  rw [denotes_operation_iff hn hp hc, denotes_operation_iff hn' (by rwa [Node.isParameter_mapEdges])
    (by rwa [Node.isComposite_mapEdges]), Node.sources_mapEdges]
  refine exists_congr fun xs ↦ ?_
  rw [R.apply_mapEdges, supplied h R he xs]

/-- A composite with placeholders of its own, applied to stand-ins. -/
theorem composite {f : NodeId → NodeId} (hn : g.node? id = some n) (hn' : g.node? id' = some n')
    (hc : n.isComposite) (hc' : n'.isComposite)
    (hsources : n'.sources = n.sources.map (Option.map f))
    (h : ∀ s, some s ∈ n.sources → g.Matches names s (f s))
    (hps : n.placeholders.Nodup) (hps' : n'.placeholders.Nodup)
    (hnames : ∀ a ∈ names, a.1 ∉ n.placeholders ∧ a.2 ∉ n'.placeholders)
    (hbody : Option.Rel (g.Matches (names ++ n.placeholders.zip n'.placeholders))
      n.body?.join n'.body?.join) : g.Matches names id id' := by
  refine ⟨fun R env env' he x ↦ ?_⟩
  generalize hb : n.body?.join = b at hbody
  generalize hb' : n'.body?.join = b' at hbody
  cases hbody with
  | none =>
      exact iff_of_false (not_denotes_of_body?_eq_none hn hc hb)
        (not_denotes_of_body?_eq_none hn' hc' hb')
  | some hbody =>
      rw [denotes_composite_iff hn hb, denotes_composite_iff hn' hb', hsources]
      refine exists_congr fun xs ↦ ?_
      rw [supplied h R he xs]
      refine and_congr_right fun hxs ↦ hbody.iff R (he.bind hps hps' ?_ ?_ hnames) x
      · rw [← hxs.length_eq, List.length_map, Node.length_sources_of_isComposite hc]
      · rw [← hxs.length_eq, ← hsources, Node.length_sources_of_isComposite hc']

end Matches

end FieldGraph.Graph
