import FieldGraph.Proofs.Graph.Levels

/-!
# What copies denote

The copy of a composite denotes what the composite does.  The copy of its body is made of stand-ins:
every node that leads to a renamed placeholder is copied after all that it reads, and every other
node is shared.
-/

namespace FieldGraph.Graph

open Relation

variable {g g' g'' : Graph} {root id : NodeId} {n : Node} {banned : List NodeId}
  {names : List (NodeId × NodeId)} {m : Renaming}

/-! ## Copies of single nodes -/

/-- A node leads to none of the banned placeholders if nothing that it reads does. -/
theorem not_reaches_of_edges (hn : g.node? id = some n) {p : NodeId} (hne : id ≠ p)
    (h : ∀ s ∈ n.edges, ¬ ReflTransGen g.Reads s p) : ¬ ReflTransGen g.Reads id p := by
  intro hreach
  rcases hreach.cases_head with rfl | ⟨s, hs, hreach⟩
  · exact hne rfl
  · rw [Reads, edges_of_node? hn] at hs
    exact h s hs hreach

/-- A copy of an operation whose operands have stand-ins. -/
theorem standsIn_insert (h : Level g g' banned names m root) (hn : g.node? id = some n)
    (hp : n.isParameter = false) (hc : n.isComposite = false)
    (hadm : g'.Admissible (n.mapEdges m.edge))
    (hs : ∀ s, some s ∈ n.sources → StandsIn g' banned names s (m.standIn s)) :
    StandsIn (g'.insert (n.mapEdges m.edge)).2 banned names id
      (g'.insert (n.mapEdges m.edge)).1 := by
  have hg := grows_insert hadm
  have hcopy {h' : Graph} (hg' : Grows (g'.insert (n.mapEdges m.edge)).2 h') :
      h'.node? (g'.insert (n.mapEdges m.edge)).1 = some (n.mapEdges m.edge) := by
    rw [← Node.isParameter_mapEdges m.edge] at hp
    exact hg'.node?_eq (node?_insert hadm hp) hp
  constructor
  · intro h' hg'
    exact .operation ((h.grows.trans (hg.trans hg')).node?_eq hn hp) (hcopy hg') hp hc
      fun s hmem ↦ (hs s hmem).same (hg.trans hg')
  · intro h' hg' p hmem
    refine not_reaches_of_edges (hcopy hg') ?_ fun s hread ↦ ?_
    · rintro rfl
      have := h.banned_old _ hmem
      have := h.grows.capacity_le
      exact absurd this (Nat.not_le.2 ‹_›)
    · obtain ⟨t, ht, heq⟩ := Node.mem_edges_mapEdges hread rfl
      cases heq
      rw [← Node.operands_of_not_composite hc, Node.mem_operands_iff] at ht
      exact (hs t ht).avoids (hg.trans hg') p hmem

private theorem rel_mono {r r' : NodeId → NodeId → Prop} (h : ∀ a b, r a b → r' a b) {e e' : Edge}
    (hr : Option.Rel r e e') : Option.Rel r' e e' := by
  cases hr with
  | some hr => exact .some (h _ _ hr)
  | none => exact .none

/-- A copy of a composite: its placeholders are new, its arguments are renamed, and its body stands
in for the body of the composite where the placeholders are named. -/
structure CopyOf (g' : Graph) (banned : List NodeId) (names : List (NodeId × NodeId))
    (m : Renaming) (n : Node) (copy : NodeId × Graph) (ps : List NodeId) (body : Edge) :
    Prop where
  node : copy.2.node? copy.1 = some (rebind m ps body n)
  grows : Grows g' copy.2
  index_le : g'.capacity ≤ copy.1.index
  length_eq : ps.length = n.placeholders.length
  nodup : ps.Nodup
  later : ∀ p ∈ ps, g'.capacity ≤ p.index
  body : Option.Rel (StandsIn copy.2 banned (names ++ n.placeholders.zip ps)) n.body?.join body

namespace CopyOf

variable {copy : NodeId × Graph} {ps : List NodeId} {body : Edge}

theorem node?_eq (hcopy : CopyOf g' banned names m n copy ps body) (hc : n.isComposite)
    (hg : Grows copy.2 g'') : g''.node? copy.1 = some (rebind m ps body n) :=
  hg.node?_eq hcopy.node (isParameter_rebind.trans (Node.isParameter_of_isComposite hc))

/-- A copy denotes what the composite does if its arguments do. -/
theorem same (hcopy : CopyOf g' banned names m n copy ps body)
    (h : Level g g' banned names m root) (hu : g.placeholders.Nodup)
    (hreach : ReflTransGen g.Reads root id) (hn : g.node? id = some n) (hc : n.isComposite)
    (hg : Grows copy.2 g'') (hs : ∀ s, some s ∈ n.sources → g''.Matches names s (m.standIn s)) :
    g''.Matches names id copy.1 := by
  have hn' : g''.node? id = some n :=
    (h.grows.trans (hcopy.grows.trans hg)).node?_eq hn (Node.isParameter_of_isComposite hc)
  have hps : (rebind m ps body n).placeholders = ps := placeholders_rebind hcopy.length_eq
  refine .composite hn' (hcopy.node?_eq hc hg) hc (isComposite_rebind.trans hc) sources_rebind hs
    (nodup_placeholders hu hn) ?_ (fun a ha ↦ ⟨h.outer a ha id n hreach hn, fun hmem ↦ ?_⟩) ?_
  · rw [hps]
    exact hcopy.nodup
  · rw [hps] at hmem
    obtain ⟨e, he⟩ := contains_iff.1 (h.live a.1 a.2 (h.named a ha))
    exact absurd (index_lt_of_entry he) (Nat.not_lt.2 (hcopy.later _ hmem))
  · rw [hps, body?_rebind hc, Option.join_some]
    exact rel_mono (fun _ _ h ↦ h.same hg) hcopy.body

/-- A copy leads to none of the banned placeholders if its arguments lead to none. -/
theorem avoids (hcopy : CopyOf g' banned names m n copy ps body)
    (h : Level g g' banned names m root) (hc : n.isComposite) (hg : Grows copy.2 g'') {p : NodeId}
    (hp : p ∈ banned)
    (hs : ∀ s, some s ∈ n.sources → ¬ ReflTransGen g''.Reads (m.standIn s) p) :
    ¬ ReflTransGen g''.Reads copy.1 p := by
  refine not_reaches_of_edges (hcopy.node?_eq hc hg) ?_ fun s hread ↦ ?_
  · rintro rfl
    have := h.banned_old _ hp
    have := h.grows.capacity_le
    have := hcopy.index_le
    omega
  · rw [Node.edges_eq_operands_append, List.mem_append, Node.mem_operands_iff, sources_rebind,
      body?_rebind hc, Option.join_some, Option.mem_toList] at hread
    rcases hread with hread | hread
    · obtain ⟨e, he, heq⟩ := List.mem_map.1 hread
      cases e with
      | none => cases heq
      | some t =>
          cases heq
          exact hs t he
    · have hbody := hcopy.body
      rw [hread] at hbody
      generalize n.body?.join = b at hbody
      cases hbody with
      | some hbody => exact hbody.avoids hg p hp

end CopyOf

/-! ## Copies of bodies -/

/-- A body that may be copied: the banned placeholders are renamed, and every composite that it
leads to may be opened. -/
structure Ready (g g' : Graph) (banned : List NodeId) (names : List (NodeId × NodeId))
    (m : Renaming) (root : NodeId) (available : List NodeId) : Prop where
  level : Level g g' banned names m root
  banned : ∀ p ∈ banned, NodeMap.contains m p
  live : g.contains root
  tidy : g.Tidy root
  spare : ∀ id n, ReflTransGen g.Reads root id → g.node? id = some n → n.isComposite →
    id ∈ available

theorem Ready.acyclic {available : List NodeId} (hr : Ready g g' banned names m root available)
    (hw : g.WellFormed) (hacyclic : g.Acyclic) (id : NodeId)
    (hreach : ReflTransGen g'.Reads root id) : ¬ TransGen g'.Reads id id := by
  rw [hr.level.grows.reaches_iff hw hr.live] at hreach
  rw [hr.level.grows.transGen_iff hw (hw.contains_of_reaches hr.live hreach)]
  exact hacyclic id

/-- Copies of bodies stand in for them. -/
def BodiesStand (g : Graph) (available : List NodeId) : Prop :=
  ∀ {g' : Graph} {banned : List NodeId} {names : List (NodeId × NodeId)} {m : Renaming}
    {root : NodeId}, Ready g g' banned names m root available →
    Option.Rel (StandsIn (g'.copyBody (copier available) m (some root)).2 banned names) (some root)
      (g'.copyBody (copier available) m (some root)).1

variable {available : List NodeId}

/-- Where bodies are copied, so is a composite whose body is tidy. -/
theorem exists_copyOf (hw : g.WellFormed) (hacyclic : g.Acyclic) (hu : g.placeholders.Nodup)
    (hbodies : BodiesStand g available) (h : Level g g' banned names m root)
    (hreach : ReflTransGen g.Reads root id) (hn : g.node? id = some n) (hc : n.isComposite)
    (hbanned : ∀ p ∈ banned, p ∈ n.placeholders ∨ NodeMap.contains m p)
    (hbody : ∀ body, n.body?.join = some body → g.Tidy body ∧ ∀ j k,
      ReflTransGen g.Reads body j → g.node? j = some k → k.isComposite → j ∈ available) :
    ∃ ps body, CopyOf g' banned names m n (copyComposite available g' n m) ps body := by
  have hedges : ∀ s ∈ n.edges, g'.contains s := fun s hs ↦
    h.grows.contains (hw.contains_of_reads (by rwa [Reads, edges_of_node? hn]))
  obtain ⟨fresh, body, hf, hcopied, hg, hadm, heq⟩ := exists_copyComposite
    (inserts_copier available) (h.grows.wellFormed hw) hedges hc h.live
  have hstands : Option.Rel (StandsIn body.2 banned (names ++ n.placeholders.zip fresh.1))
      n.body?.join body.1 := by
    rw [← hcopied]
    cases hjoin : n.body?.join with
    | none => exact .none
    | some b =>
        obtain ⟨htidy, hspare⟩ := hbody b hjoin
        exact hbodies ⟨h.opened hw hacyclic hu hf hreach hn hjoin,
          fun p hp ↦ Renaming.contains_bind (nodup_placeholders hu hn) hf.length_eq.symm
            (hbanned p hp),
          hw.contains_of_reads (reads_body hn hjoin), htidy, hspare⟩
  have hp : (rebind m fresh.1 body.1 n).isParameter = false :=
    isParameter_rebind.trans (Node.isParameter_of_isComposite hc)
  have hg' := hf.grows.trans hg
  rw [heq]
  refine ⟨fresh.1, body.1, node?_insert hadm hp, hg'.insert hadm, hg'.capacity_le, hf.length_eq,
    hf.nodup, hf.later, ?_⟩
  exact rel_mono (fun _ _ h ↦ h.grows (grows_insert hadm)) hstands

/-- A body part of whose nodes have been dealt with: each of them has a stand-in, or leads to no
renamed node. -/
structure Underway (g g' : Graph) (banned : List NodeId) (names : List (NodeId × NodeId))
    (m : Renaming) (root : NodeId) (done : List NodeId) (state : Renaming × Graph) : Prop where
  level : Level g state.2 banned names state.1 root
  grows : Grows g' state.2
  kept : ∀ k, NodeMap.contains m k → NodeMap.contains state.1 k
  shared : ∀ k ∈ done, NodeMap.get? state.1 k = none → ¬ g'.Renames m k

namespace Underway

variable {done post : List NodeId} {state : Renaming × Graph}

/-- What has been dealt with has a stand-in, which may be the node itself. -/
theorem standsIn (h : Underway g g' banned names m root done state) (hw : g.WellFormed)
    (hr : Ready g g' banned names m root available) (hdone : id ∈ done)
    (hreach : ReflTransGen g.Reads root id) :
    StandsIn state.2 banned names id (state.1.standIn id) := by
  unfold Renaming.standIn
  cases hget : NodeMap.get? state.1 id with
  | some id' => exact h.level.stands id id' hget hreach
  | none =>
      exact (hr.level.shared hw (hw.contains_of_reaches hr.live hreach) hr.banned
        (h.shared id hdone hget)).grows h.grows

theorem skip (h : Underway g g' banned names m root done state)
    (hid : NodeMap.get? state.1 id = none → ¬ g'.Renames m id) :
    Underway g g' banned names m root (done ++ [id]) state :=
  { h with
    shared := fun k hk ↦ by
      rcases List.mem_append.1 hk with hk | hk
      · exact h.shared k hk
      · rwa [List.mem_singleton.1 hk] }

theorem add (h : Underway g g' banned names m root done state)
    (hid : NodeMap.get? state.1 id = none) {copy : NodeId × Graph} (hg : Grows state.2 copy.2)
    (hlive : copy.2.contains copy.1) (hs : StandsIn copy.2 banned names id copy.1)
    (he : ∀ j n p, ReflTransGen g.Reads root j → g.node? j = some n → p ∈ n.placeholders →
      ¬ ReflTransGen (g.ReadsAround j) id p) :
    Underway g g' banned names m root (done ++ [id])
      (NodeMap.insert state.1 id copy.1, copy.2) where
  level := (h.level.onward hg).insert hid hlive hs he
  grows := h.grows.trans hg
  kept k hk := NodeMap.contains_insert_iff.2 (.inr (h.kept k hk))
  shared k hk hnone := by
    rw [NodeMap.get?_insert] at hnone
    split at hnone
    · cases hnone
    next hne =>
      rcases List.mem_append.1 hk with hk | hk
      · exact h.shared k hk hnone
      · exact absurd (List.mem_singleton.1 hk).symm hne

/-- The operands of the next node have been dealt with. -/
theorem operands (h : Underway g g' banned names m root done state) (hw : g.WellFormed)
    (hacyclic : g.Acyclic) (hr : Ready g g' banned names m root available)
    (hsplit : g'.postOrder false root = done ++ id :: post)
    (hreach : ReflTransGen g.Reads root id) (hn : g.node? id = some n) (hp : n.isParameter = false)
    {s : NodeId} (hs : some s ∈ n.sources) :
    StandsIn state.2 banned names s (state.1.standIn s) := by
  have hread := reads_of_mem_sources hn hs
  have hfollowed := hr.tidy.mem_bodyFilter hreach hn (Node.mem_operands_iff.2 hs)
  have hdone := mem_of_postOrder_eq_append (hr.acyclic hw hacyclic) hsplit
    (hr.level.grows.node?_eq hn hp) hfollowed (hr.level.grows.contains (hw.contains_of_reads hread))
  exact h.standsIn hw hr hdone (hreach.tail hread)

/-- A composite is copied to what stands in for it. -/
theorem composite (h : Underway g g' banned names m root done state) (hw : g.WellFormed)
    (hacyclic : g.Acyclic) (hu : g.placeholders.Nodup)
    (hr : Ready g g' banned names m root available)
    (hbodies : ∀ id ∈ available, BodiesStand g (available.erase id))
    (haround : ∀ composite, ReflTransGen (g.ReadsAround composite) root id)
    (hn : g.node? id = some n) (hc : n.isComposite)
    (hs : ∀ s, some s ∈ n.sources → StandsIn state.2 banned names s (state.1.standIn s)) :
    let copy := copyComposite (available.erase id) state.2 n state.1
    Grows state.2 copy.2 ∧ copy.2.contains copy.1 ∧ StandsIn copy.2 banned names id copy.1 := by
  intro copy
  have hreach := reaches_of_around (haround id)
  obtain ⟨ps, body, hcopy⟩ := exists_copyOf hw hacyclic hu
    (hbodies id (hr.spare id n hreach hn hc)) h.level hreach hn hc
    (fun p hp ↦ .inr (h.kept p (hr.banned p hp))) fun body hbody ↦ by
      refine ⟨hr.tidy.body hacyclic haround hn hbody, fun j k hj hk hc' ↦ ?_⟩
      have hne : j ≠ id := by
        rintro rfl
        exact not_reaches_of_body hacyclic hn hbody hj
      exact (List.mem_erase_of_ne hne).2
        (hr.spare j k ((hreach.tail (reads_body hn hbody)).trans hj) hk hc')
  refine ⟨hcopy.grows, contains_of_node? hcopy.node, fun hg ↦ ?_, fun hg p hp ↦ ?_⟩
  · exact hcopy.same h.level hu hreach hn hc hg fun s hmem ↦
      (hs s hmem).same (hcopy.grows.trans hg)
  · exact hcopy.avoids h.level hc hg hp fun s hmem ↦
      (hs s hmem).avoids (hcopy.grows.trans hg) p hp

/-- A node whose operands have been dealt with is copied to what stands in for it. -/
theorem exists_copy (h : Underway g g' banned names m root done state) (hw : g.WellFormed)
    (hacyclic : g.Acyclic) (hu : g.placeholders.Nodup)
    (hr : Ready g g' banned names m root available)
    (hbodies : ∀ id ∈ available, BodiesStand g (available.erase id))
    (haround : ∀ composite, ReflTransGen (g.ReadsAround composite) root id)
    (hn : g.node? id = some n) (hp : n.isParameter = false)
    (hs : ∀ s, some s ∈ n.sources → StandsIn state.2 banned names s (state.1.standIn s)) :
    ∃ copy, (if n.isComposite then copier available id state.2 n state.1
        else some (state.2.insert (n.mapEdges state.1.edge))) = some copy ∧
      Grows state.2 copy.2 ∧ copy.2.contains copy.1 ∧ StandsIn copy.2 banned names id copy.1 := by
  by_cases hc : n.isComposite
  · have hid := hr.spare id n (reaches_of_around (haround id)) hn hc
    refine ⟨_, ?_, h.composite hw hacyclic hu hr hbodies haround hn hc hs⟩
    rw [if_pos hc, copier, if_pos hid]
  · have hc' : n.isComposite = false := Bool.eq_false_iff.2 hc
    obtain ⟨e, he, rfl⟩ := node?_eq_some_iff.1 hn
    have hadm : state.2.Admissible (e.node.mapEdges state.1.edge) :=
      admissible_mapEdges hc' h.level.live
        (fun s hs ↦ h.level.grows.contains (hw.edges_live he hs)) (hw.arity he)
    exact ⟨_, if_neg hc, grows_insert hadm, contains_insert hadm,
      standsIn_insert h.level hn hp hc' hadm hs⟩

/-- Dealing with the next node, once bodies are copied where fewer composites may be opened. -/
theorem step (h : Underway g g' banned names m root done state) (hw : g.WellFormed)
    (hacyclic : g.Acyclic) (hu : g.placeholders.Nodup)
    (hr : Ready g g' banned names m root available)
    (hbodies : ∀ id ∈ available, BodiesStand g (available.erase id))
    (hsplit : g'.postOrder false root = done ++ id :: post) :
    Underway g g' banned names m root (done ++ [id])
      (copyReader (copier available) (g'.readers m root) state id) := by
  obtain ⟨m₂, g₂⟩ := state
  have hmem : id ∈ g'.postOrder false root := by
    rw [hsplit]
    exact List.mem_append_right _ List.mem_cons_self
  have haround := around_of_mem_postOrder hw hr.level.grows hr.live hmem
  have hreach := reaches_of_around (haround id)
  have hreads : (g'.readers m root).contains id ↔ g'.Renames m id :=
    contains_readers_iff (hr.level.grows.wellFormed hw) (hr.level.grows.contains hr.live)
      (hr.acyclic hw hacyclic) ((hr.level.grows.reaches_iff hw hr.live).2 hreach)
  unfold copyReader
  simp only
  split
  next hskip =>
    refine h.skip fun hnone hren ↦ ?_
    rcases hskip with hkey | hskip
    · rw [NodeMap.contains_eq, hnone] at hkey
      cases hkey
    · rw [hreads.2 hren] at hskip
      cases hskip
  next hcopy =>
    obtain ⟨hkey, hren⟩ := not_or.1 hcopy
    have hget : NodeMap.get? m₂ id = none := by simpa [NodeMap.contains_eq] using hkey
    have hl := hw.contains_of_reaches hr.live hreach
    obtain ⟨e, he⟩ := contains_iff.1 hl
    have hn := node?_of_entry he
    -- a parameter leads to nothing else, so that it would be renamed itself
    have hp : e.node.isParameter = false := by
      rcases renames_iff.1 (hreads.1 (by simpa using hren)) with hm | ⟨s, hs, -⟩
      · exact absurd (h.kept id hm) hkey
      · rw [hr.level.grows.edges_eq hl, edges_of_node? hn] at hs
        exact Node.isParameter_of_mem_edges hs
    have hs (s : NodeId) (hs : some s ∈ e.node.sources) :
        StandsIn g₂ banned names s (m₂.standIn s) :=
      h.operands hw hacyclic hr hsplit hreach hn hp hs
    have hclosed (j : NodeId) (k : Node) (p : NodeId) (hj : ReflTransGen g.Reads root j)
        (hk : g.node? j = some k) (hp : p ∈ k.placeholders) :
        ¬ ReflTransGen (g.ReadsAround j) id p := fun hback ↦
      hr.tidy.enclosed j k p hj hk hp ((haround j).trans hback)
    obtain ⟨copy, hcopied, hg, hlive, hstands⟩ :=
      h.exists_copy hw hacyclic hu hr hbodies haround hn hp hs
    rw [h.level.grows.node?_eq hn hp]
    simp only [hcopied]
    exact h.add hget hg hlive hstands hclosed

end Underway

/-- Bodies are copied to what stands in for them. -/
theorem bodiesStand (hw : g.WellFormed) (hacyclic : g.Acyclic) (hu : g.placeholders.Nodup)
    (available : List NodeId) : BodiesStand g available := by
  -- every composite that is opened uses up one that may be opened
  induction available using erase_induction with
  | step available hbodies =>
      intro g' banned names m root hr
      have hfold (todo : List NodeId) : ∀ done state,
          g'.postOrder false root = done ++ todo → Underway g g' banned names m root done state →
          Underway g g' banned names m root (done ++ todo)
            (todo.foldl (copyReader (copier available) (g'.readers m root)) state) := by
        induction todo with
        | nil =>
            intro done state _ h
            rwa [List.append_nil]
        | cons id todo ih =>
            intro done state hsplit h
            have hstep := h.step hw hacyclic hu hr hbodies hsplit
            rw [List.append_cons] at hsplit ⊢
            exact ih _ _ hsplit hstep
      have hdone := hfold _ [] (m, g') rfl ⟨hr.level, .refl, fun _ h ↦ h, fun _ h ↦ by cases h⟩
      exact .some (hdone.standsIn hw hr
        (root_mem_postOrder (hr.acyclic hw hacyclic) (hr.level.grows.contains hr.live)) .refl)

/-! ## Duplicates -/

/-- Before a composite is opened nothing is named. -/
theorem level_empty (hw : g.WellFormed) (hn : g.node? id = some n) :
    Level g g n.placeholders [] NodeMap.empty id where
  grows := .refl
  live := Renaming.live_empty g
  banned_old p hp := by
    obtain ⟨e, he, rfl⟩ := node?_eq_some_iff.1 hn
    exact (hw.placeholders he hp).1
  named _ h := by cases h
  old _ h := by cases h
  new _ h := by cases h
  outer _ h := by cases h
  stands _ _ h := by cases h
  enclosed _ _ h := by cases h

/-- The duplicate of a composite with a tidy body is a composite that denotes the same, however the
graph grows, and whose body does not lead to the placeholders of the first one. -/
theorem exists_duplicate (hw : g.WellFormed) (hacyclic : g.Acyclic) (hu : g.placeholders.Nodup)
    (hn : g.node? id = some n) (hc : n.isComposite)
    (htidy : ∀ body, n.body?.join = some body → g.Tidy body) :
    ∃ copy k, g.duplicate id = .ok copy ∧ copy.2.node? copy.1 = some k ∧ k.isComposite ∧
      (∀ body p, k.body?.join = some body → p ∈ n.placeholders →
        ¬ ReflTransGen copy.2.Reads body p) ∧
      ∀ h, Grows copy.2 h → h.Matches [] id copy.1 := by
  have hlevel := level_empty hw hn
  obtain ⟨ps, body, hcopy⟩ := exists_copyOf hw hacyclic hu
    (bodiesStand hw hacyclic hu (g.composites.erase id)) hlevel .refl hn hc (fun _ hp ↦ .inl hp)
    fun body hbody ↦ by
      refine ⟨htidy body hbody, fun j k hj hk hc' ↦ ?_⟩
      have hne : j ≠ id := by
        rintro rfl
        exact not_reaches_of_body hacyclic hn hbody hj
      rw [List.mem_erase_of_ne hne, composites, List.mem_filter, hk]
      exact ⟨mem_ids.2 (contains_of_node? hk), hc'⟩
  refine ⟨_, _, ?_, hcopy.node, isComposite_rebind.trans hc, fun b p hb hp ↦ ?_, fun h hg ↦ ?_⟩
  · rw [duplicate, hn]
    exact if_pos hc
  · rw [body?_rebind hc, Option.join_some] at hb
    have hbody := hcopy.body
    rw [hb] at hbody
    generalize n.body?.join = b' at hbody
    cases hbody with
    | some hbody => exact hbody.avoids .refl p hp
  · exact hcopy.same hlevel hu .refl hn hc hg fun s hs ↦ .of_avoids fun _ _ _ ha ↦ by cases ha

end FieldGraph.Graph
