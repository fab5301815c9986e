import FieldGraph.Proofs.Graph.Copying
import FieldGraph.Proofs.Graph.PostOrder
import FieldGraph.Proofs.Graph.StandIns

/-!
# Levels

While a body is copied, the placeholders of the composites that have been opened are named, and the
nodes that have been copied have stand-ins.  What holds of both is kept when the graph grows, when
one more node is copied and when another composite is opened.

This asks two things of the body.  A composite in it must not have its body for an argument, too:
the body is not copied along with the arguments, so that the argument would be left as it is.  And
the placeholders of a composite must be met only in its body: a node is copied once, for all who
read it.
-/

namespace FieldGraph.Graph

open Relation

variable {g g' g'' : Graph} {root id : NodeId} {n : Node}

/-! ## Tidy bodies -/

/-- An edge, other than one that leads from a given composite to its body alone. -/
def ReadsAround (g : Graph) (composite a b : NodeId) : Prop :=
  g.Reads a b ∧ (a = composite → g.Leads Node.operands a b)

/-- No composite under the root has its body for an argument, and the root leads to the placeholders
of a composite only through its body. -/
structure Tidy (g : Graph) (root : NodeId) : Prop where
  apart : ∀ id n body, ReflTransGen g.Reads root id → g.node? id = some n →
    n.body?.join = some body → body ∉ n.operands
  enclosed : ∀ id n p, ReflTransGen g.Reads root id → g.node? id = some n → p ∈ n.placeholders →
    ¬ ReflTransGen (g.ReadsAround id) root p

theorem leads_operands_iff (hn : g.node? id = some n) {s : NodeId} :
    g.Leads Node.operands id s ↔ s ∈ n.operands := by
  rw [Leads, ahead_of_node? hn]

theorem reaches_of_around {composite a b : NodeId}
    (h : ReflTransGen (g.ReadsAround composite) a b) : ReflTransGen g.Reads a b :=
  ReflTransGen.mono (fun _ _ h ↦ h.1) _ _ h

/-- What does not lead to a composite leads nowhere through it. -/
theorem around_of_reaches {composite a b : NodeId} (h : ReflTransGen g.Reads a b)
    (ha : ¬ ReflTransGen g.Reads a composite) : ReflTransGen (g.ReadsAround composite) a b := by
  induction h with
  | refl => exact .refl
  | tail hab hbc ih => exact ih.tail ⟨hbc, fun heq ↦ absurd (heq ▸ hab) ha⟩

/-- The body of a composite does not lead to the composite. -/
theorem not_reaches_of_body (hacyclic : g.Acyclic) (hn : g.node? id = some n) {body : NodeId}
    (hbody : n.body?.join = some body) : ¬ ReflTransGen g.Reads body id :=
  fun hback ↦ hacyclic id (.head' (reads_body hn hbody) hback)

/-- The body of a composite that is reached around all bodies is tidy again. -/
theorem Tidy.body (hacyclic : g.Acyclic) (h : g.Tidy root)
    (haround : ∀ composite, ReflTransGen (g.ReadsAround composite) root id)
    (hn : g.node? id = some n) {body : NodeId} (hbody : n.body?.join = some body) :
    g.Tidy body := by
  have hreach : ReflTransGen g.Reads root body :=
    (reaches_of_around (haround id)).tail (reads_body hn hbody)
  refine ⟨fun j m b hj ↦ h.apart j m b (hreach.trans hj), fun j m p hj hm hp hback ↦ ?_⟩
  refine h.enclosed j m p (hreach.trans hj) hm hp (.trans ((haround j).tail ?_) hback)
  refine ⟨reads_body hn hbody, ?_⟩
  rintro rfl
  exact absurd hj (not_reaches_of_body hacyclic hn hbody)

/-- The operands of a tidy composite are followed. -/
theorem Tidy.mem_bodyFilter (h : g.Tidy root) (hreach : ReflTransGen g.Reads root id)
    (hn : g.node? id = some n) {s : NodeId} (hs : s ∈ n.operands) : s ∈ bodyFilter false n :=
  mem_bodyFilter_of_mem_operands hs fun hbody ↦ h.apart id n s hreach hn hbody hs

/-- Without bodies, everything listed under a root is reached around all bodies. -/
theorem around_of_mem_postOrder (hw : g.WellFormed) (hg : Grows g g') (hl : g.contains root)
    (h : id ∈ g'.postOrder false root) (composite : NodeId) :
    ReflTransGen (g.ReadsAround composite) root id := by
  have hleads := leads_of_mem_postOrder h
  clear h
  induction hleads with
  | refl => exact .refl
  | @tail a b _ hab ih =>
      obtain ⟨e, he⟩ := contains_iff.1 (hw.contains_of_reaches hl (reaches_of_around ih))
      have hn := node?_of_entry he
      obtain ⟨n', hn', ho⟩ := hg.node? hn
      rw [Leads, ahead_of_node? hn'] at hab
      have hmem := mem_edges_of_mem_followed n' b hab
      rw [Node.edges_eq_of_outline ho] at hmem
      obtain rfl := Node.eq_of_outline ho (Node.isParameter_of_mem_edges hmem)
      refine ih.tail ⟨by rwa [Reads, edges_of_node? hn], fun _ ↦ ?_⟩
      rw [leads_operands_iff hn]
      exact mem_operands_of_mem_bodyFilter (List.mem_reverse.1 hab)

/-! ## Renamings -/

/-- The stand-in of a node, or the node itself if it has none. -/
def Renaming.standIn (m : Renaming) (id : NodeId) : NodeId := (m.get? id).getD id

theorem Renaming.get?_bind {m : Renaming} {old new : List NodeId} (hold : old.Nodup) (k : NodeId) :
    NodeMap.get? (m.bind old new) k = Env.bind m.get? old new k := by
  induction old generalizing m new with
  | nil => rfl
  | cons p old ih =>
      cases new with
      | nil => rfl
      | cons q new =>
          obtain ⟨hp, hold⟩ := List.nodup_cons.1 hold
          change NodeMap.get? (Renaming.bind (m.insert p q) old new) k = _
          rw [ih hold]
          by_cases hk : k = p
          · subst hk
            rw [Env.bind_of_not_mem hp, NodeMap.get?_insert, if_pos rfl, Env.bind,
              List.zip_cons_cons, List.lookup_cons, beq_self_eq_true, Option.some_or]
          · rw [Env.bind, Env.bind, List.zip_cons_cons, List.lookup_cons, NodeMap.get?_insert,
              if_neg (Ne.symm hk), beq_eq_false_iff_ne.2 hk]

theorem Renaming.contains_bind {m : Renaming} {old new : List NodeId} (hold : old.Nodup)
    (hlen : old.length = new.length) {k : NodeId} (hk : k ∈ old ∨ NodeMap.contains m k) :
    NodeMap.contains (m.bind old new) k := by
  rw [NodeMap.contains_eq, get?_bind hold]
  by_cases hmem : k ∈ old
  · obtain ⟨i, hi⟩ := List.mem_iff_getElem?.1 hmem
    have hlt : i < new.length := hlen ▸ (List.getElem?_eq_some_iff.1 hi).1
    rw [Env.bind_of_getElem? hold hi (List.getElem?_eq_getElem hlt)]
    rfl
  · rw [Env.bind_of_not_mem hmem]
    exact hk.resolve_left hmem

/-! ## Stand-ins -/

/-- A stand-in denotes what its node does however the graph grows, and never leads to the
placeholders that are banned. -/
structure StandsIn (g : Graph) (banned : List NodeId) (names : List (NodeId × NodeId))
    (id id' : NodeId) : Prop where
  same : ∀ {h : Graph}, Grows g h → h.Matches names id id'
  avoids : ∀ {h : Graph}, Grows g h → ∀ p ∈ banned, ¬ ReflTransGen h.Reads id' p

variable {banned : List NodeId} {names : List (NodeId × NodeId)} {m : Renaming}

theorem StandsIn.grows {id' : NodeId} (h : StandsIn g banned names id id') (hg : Grows g g') :
    StandsIn g' banned names id id' :=
  ⟨fun hg' ↦ h.same (hg.trans hg'), fun hg' ↦ h.avoids (hg.trans hg')⟩

/-- The names in force while a body is copied, and the stand-ins found so far.  The graph that is
copied has grown to the one that is copied to. -/
structure Level (g g' : Graph) (banned : List NodeId) (names : List (NodeId × NodeId))
    (m : Renaming) (root : NodeId) : Prop where
  grows : Grows g g'
  live : m.Live g'
  banned_old : ∀ p ∈ banned, p.index < g.capacity
  /-- A named placeholder is renamed. -/
  named : ∀ a ∈ names, NodeMap.get? m a.1 = some a.2
  /-- The names are new for the graph that is copied. -/
  old : ∀ a ∈ names, a.1.index < g.capacity
  new : ∀ a ∈ names, g.capacity ≤ a.2.index
  /-- The named placeholders do not belong to composites under the root. -/
  outer : ∀ a ∈ names, ∀ id n, ReflTransGen g.Reads root id → g.node? id = some n →
    a.1 ∉ n.placeholders
  stands : ∀ k k', NodeMap.get? m k = some k' → ReflTransGen g.Reads root k →
    StandsIn g' banned names k k'
  /-- What has a stand-in leads to the placeholders of a composite only through its body. -/
  enclosed : ∀ k k', NodeMap.get? m k = some k' → ReflTransGen g.Reads root k →
    ∀ id n p, ReflTransGen g.Reads root id → g.node? id = some n → p ∈ n.placeholders →
      ¬ ReflTransGen (g.ReadsAround id) k p

namespace Level

theorem onward (h : Level g g' banned names m root) (hg : Grows g' g'') :
    Level g g'' banned names m root :=
  { h with
    grows := h.grows.trans hg
    live := h.live.grows hg
    stands := fun k k' hk hreach ↦ (h.stands k k' hk hreach).grows hg }

/-- One more stand-in. -/
theorem insert (h : Level g g' banned names m root) {copy : NodeId}
    (hid : NodeMap.get? m id = none) (hlive : g'.contains copy)
    (hs : StandsIn g' banned names id copy)
    (he : ∀ j n p, ReflTransGen g.Reads root j → g.node? j = some n → p ∈ n.placeholders →
      ¬ ReflTransGen (g.ReadsAround j) id p) :
    Level g g' banned names (NodeMap.insert m id copy) root :=
  { h with
    live := h.live.insert hlive
    named := fun a ha ↦ by
      rw [NodeMap.get?_insert, if_neg, h.named a ha]
      rintro rfl
      rw [h.named a ha] at hid
      cases hid
    stands := fun k k' hk hreach ↦ by
      rw [NodeMap.get?_insert] at hk
      split at hk
      next heq => cases heq; cases hk; exact hs
      · exact h.stands k k' hk hreach
    enclosed := fun k k' hk hreach ↦ by
      rw [NodeMap.get?_insert] at hk
      split at hk
      next heq => cases heq; exact he
      · exact h.enclosed k k' hk hreach }

/-- A node that leads to no renamed node is shared. -/
theorem shared (h : Level g g' banned names m root) (hw : g.WellFormed) (hl : g.contains id)
    (hbanned : ∀ p ∈ banned, NodeMap.contains m p) (hid : ¬ g'.Renames m id) :
    StandsIn g' banned names id id := by
  have hfree {h' : Graph} (hg : Grows g' h') {p : NodeId} (hp : ReflTransGen h'.Reads id p) :
      g.contains p ∧ ¬ NodeMap.contains m p := by
    rw [(h.grows.trans hg).reaches_iff hw hl] at hp
    exact ⟨hw.contains_of_reaches hl hp,
      fun hmem ↦ hid ⟨p, hmem, (h.grows.reaches_iff hw hl).2 hp⟩⟩
  refine ⟨fun hg ↦ .of_avoids fun p hp a ha ↦ ⟨?_, ?_⟩, fun hg p hp hreach ↦ ?_⟩
  · rintro rfl
    refine (hfree hg hp).2 ?_
    rw [NodeMap.contains_eq, h.named a ha]
    rfl
  · rintro rfl
    obtain ⟨e, he⟩ := contains_iff.1 (hfree hg hp).1
    exact absurd (index_lt_of_entry he) (Nat.not_lt.2 (h.new a ha))
  · exact (hfree hg hreach).2 (hbanned p hp)

/-- What has a stand-in keeps it when a composite under the root is opened. -/
theorem stands_open (h : Level g g' banned names m root) (hw : g.WellFormed)
    (hacyclic : g.Acyclic) {ps : List NodeId} (hps : ∀ p ∈ ps, g.capacity ≤ p.index)
    (hreach : ReflTransGen g.Reads root id) (hn : g.node? id = some n) {body : NodeId}
    (hbody : n.body?.join = some body) {k k' : NodeId} (hk : NodeMap.get? m k = some k')
    (hkbody : ReflTransGen g.Reads body k) (hg : Grows g' g'') :
    StandsIn g'' banned (names ++ n.placeholders.zip ps) k k' := by
  have hroot : ReflTransGen g.Reads root k := (hreach.tail (reads_body hn hbody)).trans hkbody
  have hs := h.stands k k' hk hroot
  have hl : g.contains k :=
    hw.contains_of_reaches (hw.contains_of_reads (reads_body hn hbody)) hkbody
  -- the node does not lead to the composite, so that it leads around its body
  have hback : ¬ ReflTransGen g.Reads k id := fun hback ↦
    not_reaches_of_body hacyclic hn hbody (hkbody.trans hback)
  refine ⟨fun hg' ↦ (hs.same (hg.trans hg')).append (fun p hp a ha ↦ ⟨?_, ?_⟩) fun a ha b hb ↦
    ⟨?_, ?_⟩, fun hg' ↦ hs.avoids (hg.trans hg')⟩
  · rintro rfl
    rw [(h.grows.trans (hg.trans hg')).reaches_iff hw hl] at hp
    exact h.enclosed k k' hk hroot id n _ hreach hn (List.of_mem_zip ha).1
      (around_of_reaches hp hback)
  · rintro rfl
    rw [(h.grows.trans (hg.trans hg')).reaches_iff hw hl] at hp
    obtain ⟨e, he⟩ := contains_iff.1 (hw.contains_of_reaches hl hp)
    exact absurd (index_lt_of_entry he) (Nat.not_lt.2 (hps _ (List.of_mem_zip ha).2))
  · intro heq
    exact h.outer a ha id n hreach hn (heq ▸ (List.of_mem_zip hb).1)
  · intro heq
    exact absurd (h.old a ha) (Nat.not_lt.2 (heq ▸ hps _ (List.of_mem_zip hb).2))

/-- A placeholder of a composite that is opened has a new one for its stand-in. -/
theorem stands_placeholder (h : Level g g' banned names m root) (hw : g.WellFormed)
    {fresh : List NodeId × Graph} (hf : Fresh g' n.placeholders.length fresh)
    (hn : g.node? id = some n) {k k' : NodeId} (ha : (k, k') ∈ n.placeholders.zip fresh.1)
    (hl : g.contains k) :
    StandsIn fresh.2 banned (names ++ n.placeholders.zip fresh.1) k k' := by
  obtain ⟨hk, hk'⟩ := List.of_mem_zip ha
  have hparameter {h' : Graph} (hg : Grows fresh.2 h') :
      ∃ index t, h'.node? k' = some (.parameter index t) := by
    obtain ⟨f, hf, hpar⟩ := hf.parameter k' hk' h' hg
    obtain ⟨index, t, hnode⟩ := Node.exists_parameter_of_isParameter hpar
    exact ⟨index, t, hnode ▸ node?_of_entry hf⟩
  constructor
  · intro h' hg
    obtain ⟨e, he⟩ := contains_iff.1 hl
    obtain ⟨d, hd, rfl⟩ := node?_eq_some_iff.1 hn
    have hpar := (hw.placeholders hd hk).2 e he
    obtain ⟨m', hm', ho⟩ := (h.grows.trans (hf.grows.trans hg)).node? (node?_of_entry he)
    rw [← Node.isParameter_eq_of_outline ho] at hpar
    obtain ⟨index, t, rfl⟩ := Node.exists_parameter_of_isParameter hpar
    obtain ⟨index', t', hn'⟩ := hparameter hg
    exact .placeholder (a := (k, k')) (List.mem_append_right _ ha) hm' hn'
  · intro h' hg p hp hreach
    obtain ⟨index, t, hn'⟩ := hparameter hg
    rcases hreach.cases_head with rfl | ⟨s, hs, -⟩
    · have := h.banned_old _ hp
      have := hf.later _ hk'
      have := h.grows.capacity_le
      omega
    · rw [Reads, edges_of_node? hn'] at hs
      cases hs

/-- Opening a composite under the root names its placeholders. -/
theorem opened (h : Level g g' banned names m root) (hw : g.WellFormed) (hacyclic : g.Acyclic)
    (hu : g.placeholders.Nodup) {fresh : List NodeId × Graph}
    (hf : Fresh g' n.placeholders.length fresh) (hreach : ReflTransGen g.Reads root id)
    (hn : g.node? id = some n) {body : NodeId} (hbody : n.body?.join = some body) :
    Level g fresh.2 banned (names ++ n.placeholders.zip fresh.1)
      (m.bind n.placeholders fresh.1) body := by
  have hps : n.placeholders.Nodup := nodup_placeholders hu hn
  have hread := reads_body hn hbody
  have hlater (p : NodeId) (hp : p ∈ fresh.1) : g.capacity ≤ p.index :=
    h.grows.capacity_le.trans (hf.later p hp)
  have hunder {j : NodeId} (hj : ReflTransGen g.Reads body j) : ReflTransGen g.Reads root j :=
    (hreach.tail hread).trans hj
  have hother {j p : NodeId} {k : Node} (hj : ReflTransGen g.Reads body j)
      (hk : g.node? j = some k) (hp : p ∈ n.placeholders) : p ∉ k.placeholders := fun hp' ↦ by
    cases eq_of_mem_placeholders hu hn hk hp hp'
    exact not_reaches_of_body hacyclic hn hbody hj
  -- a renamed node is a placeholder of the composite, or had a stand-in before
  have hget {k k' : NodeId} (hk : NodeMap.get? (m.bind n.placeholders fresh.1) k = some k') :
      (k, k') ∈ n.placeholders.zip fresh.1 ∨ NodeMap.get? m k = some k' := by
    rw [Renaming.get?_bind hps] at hk
    exact Env.of_bind hk
  constructor
  case grows => exact h.grows.trans hf.grows
  case live => exact (h.live.grows hf.grows).bind hf.contains
  case banned_old => exact h.banned_old
  case named =>
    intro a ha
    rw [Renaming.get?_bind hps]
    rcases List.mem_append.1 ha with ha | ha
    · rw [Env.bind_of_not_mem (h.outer a ha id n hreach hn)]
      exact h.named a ha
    · obtain ⟨i, hi⟩ := List.mem_iff_getElem?.1 ha
      obtain ⟨hp, hp'⟩ := List.getElem?_zip_eq_some.1 hi
      exact Env.bind_of_getElem? hps hp hp'
  case old =>
    intro a ha
    rcases List.mem_append.1 ha with ha | ha
    · exact h.old a ha
    · obtain ⟨e, he, rfl⟩ := node?_eq_some_iff.1 hn
      exact (hw.placeholders he (List.of_mem_zip ha).1).1
  case new =>
    intro a ha
    rcases List.mem_append.1 ha with ha | ha
    · exact h.new a ha
    · exact hlater a.2 (List.of_mem_zip ha).2
  case outer =>
    intro a ha j k hj hk
    rcases List.mem_append.1 ha with ha | ha
    · exact h.outer a ha j k (hunder hj) hk
    · exact hother hj hk (List.of_mem_zip ha).1
  case stands =>
    intro k k' hk hkbody
    rcases hget hk with ha | hk
    · exact h.stands_placeholder hw hf hn ha
        (hw.contains_of_reaches (hw.contains_of_reads hread) hkbody)
    · exact h.stands_open hw hacyclic hlater hreach hn hbody hk hkbody hf.grows
  case enclosed =>
    intro k k' hk hkbody j l p hj hl hp hback
    rcases hget hk with ha | hk
    · have hk := (List.of_mem_zip ha).1
      rcases hback.cases_head with rfl | ⟨s, ⟨hs, -⟩, -⟩
      · exact hother hj hl hk hp
      · rw [Reads, hw.edges_of_mem_placeholders hn hk] at hs
        cases hs
    · exact h.enclosed k k' hk (hunder hkbody) j l p (hunder hj) hl hp hback

end Level

end FieldGraph.Graph
