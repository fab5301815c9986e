import FieldGraph.Proofs.Graph.Atomicity
import FieldGraph.Proofs.Graph.Cycles
import FieldGraph.Proofs.Graph.Locality
import FieldGraph.Proofs.Graph.PostOrder

/-!
# Copies only add

Everything that a copy adds owns placeholders that are added with it, so that no node that was there
lies downstream of it, and no propagation on the way gets back to what was there.  Composites are
opened for copying one inside another.  Where none is reachable from its own body those that are
open are all different, so that the copier never has to refuse one, and would come to its end if it
could not.
-/

namespace FieldGraph.Graph

open Relation

variable {g g' : Graph} {id : NodeId} {n : Node}

/-! ## What insertions keep -/

/-- Whatever is not in the first graph owns placeholders that are new since. -/
def OwnsLater (g g' : Graph) : Prop :=
  ∀ ⦃id n⦄, g'.node? id = some n → g.contains id ∨ ∀ p ∈ n.placeholders, g.capacity ≤ p.index

/-- What was in the first graph is in the second one with the same node and type, and has only gained
new consumers, after those it had. -/
def Gains (g g' : Graph) : Prop :=
  ∀ ⦃id e⦄, g.entry? id = some e → ∃ more,
    g'.entry? id = some { e with dependents := e.dependents ++ more } ∧
      ∀ c ∈ more, g.capacity ≤ c.index

theorem Apart.ownsLater (h : Apart g g') : OwnsLater g g' :=
  fun _ _ hn ↦ (h hn).imp_right OwnsNew.later

theorem OwnsLater.of_grows {g'' : Graph} (h : OwnsLater g g'') (hg : Grows g' g'') :
    OwnsLater g g' := fun _ _ hn ↦ by
  obtain ⟨m, hm, ho⟩ := hg.node? hn
  exact (h hm).imp_right fun hlater p hp ↦ hlater p (Node.placeholders_eq_of_outline ho ▸ hp)

/-- A node that is live after insertions was live before, or is new. -/
theorem Grows.contains_or_later (hg : Grows g g') (hw : g.WellFormed) {j : NodeId}
    (hj : g'.contains j) : g.contains j ∨ g.capacity ≤ j.index := by
  by_contra h
  obtain ⟨hdead, hlt⟩ := not_or.1 h
  exact hg.steps.not_contains hw (Nat.lt_of_not_le hlt) hdead hj

/-- A composite that was live before insertions was the same then. -/
theorem Grows.node?_of_node? (hg : Grows g g') (hlive : g.contains id) (hn : g'.node? id = some n)
    (hc : n.isComposite) : g.node? id = some n := by
  obtain ⟨e, he⟩ := contains_iff.1 hlive
  obtain ⟨m, hm, ho⟩ := hg.node? (node?_of_entry he)
  obtain rfl := Option.some.inj (hn.symm.trans hm)
  have hpar := (Node.isParameter_eq_of_outline ho).symm.trans (Node.isParameter_of_isComposite hc)
  rw [Node.eq_of_outline ho hpar]
  exact node?_of_entry he

/-- What is new informs only what is new. -/
theorem keepsWithin_attach (hg : Grows g g') (hw : g.WellFormed) (hn : g'.Admissible n)
    (hnew : ∀ p ∈ n.placeholders, g.capacity ≤ p.index) (hold : OwnsLater g g') :
    (g'.attach n).KeepsWithin fun j ↦ g.capacity ≤ j.index := by
  have former {a : NodeId} {m : Node} (hm : (g'.attach n).node? a = some m) :
      (a = g'.nextId ∧ m = n) ∨ g'.node? a = some m := by
    obtain ⟨e, he, rfl⟩ := node?_eq_some_iff.1 hm
    rw [entry?_attach hn.edges_live] at he
    split at he
    next ha =>
      cases he
      exact .inl ⟨ha, rfl⟩
    · obtain ⟨f, hf, rfl⟩ := Option.map_eq_some_iff.1 he
      exact .inr (node?_eq_some_iff.2 ⟨f, hf, rfl⟩)
  have dead {a : NodeId} (ha : g.capacity ≤ a.index) : ¬ g.contains a := fun hlive ↦ by
    obtain ⟨e, he⟩ := contains_iff.1 hlive
    exact Nat.not_lt.2 ha (index_lt_of_entry he)
  rintro a b ha (hr | ⟨m, hm, hb⟩)
  · obtain ⟨m, hm, hmem⟩ := exists_node_of_mem_edges hr
    rcases former hm with ⟨rfl, -⟩ | hm
    · exact hg.capacity_le
    · -- what was there reads what was there
      refine (hg.contains_or_later hw (contains_of_node? hm)).resolve_left fun hlive ↦ ?_
      have hmem' : g'.Reads b a := by rwa [Reads, edges_of_node? hm]
      rw [Reads, hg.edges_eq hlive] at hmem'
      exact dead ha (hw.contains_of_reads hmem')
  · rcases former hm with ⟨-, rfl⟩ | hm
    · exact hnew b hb
    · exact (hold hm).resolve_left (dead ha) b hb

/-- Insertions of nodes with new placeholders leave what was there as it was. -/
theorem Grows.gains (hg : Grows g g') (hw : g.WellFormed) (h : OwnsLater g g') : Gains g g' := by
  induction hg with
  | refl =>
      intro j e he
      exact ⟨[], by rw [he, List.append_nil], fun _ hc ↦ by cases hc⟩
  | @insert g₁ n hg hn ih =>
      intro j e he
      obtain ⟨more, he₁, hmore⟩ := ih (h.of_grows (grows_insert hn)) he
      have hnew : ∀ p ∈ n.placeholders, g.capacity ≤ p.index := by
        obtain ⟨m, hm, ho⟩ := exists_node?_insert hn
        have hlater := (h hm).resolve_left fun hlive ↦ by
          obtain ⟨e, he⟩ := contains_iff.1 hlive
          exact Nat.not_lt.2 hg.capacity_le (index_lt_of_entry he)
        rwa [Node.placeholders_eq_of_outline ho] at hlater
      have hwithin : ∀ q ∈ [g₁.nextId], g.capacity ≤ q.index := fun q hq ↦ by
        rw [List.mem_singleton.1 hq]
        exact hg.capacity_le
      have hc := confined_propagate ((hg.wellFormed hw).attach hn)
        (keepsWithin_attach hg hw hn hnew (h.of_grows (grows_insert hn))) hwithin
      refine ⟨more ++ List.replicate (n.edges.count j) g₁.nextId, ?_, fun c hc ↦ ?_⟩
      · have hj : ¬ g.capacity ≤ j.index := Nat.not_le.2 (index_lt_of_entry he)
        rw [Graph.insert, ← attach, hc.entry?_eq hj, entry?_attach_of_contains hn.edges_live he₁]
        simp only [List.append_assoc]
      · rcases List.mem_append.1 hc with hc | hc
        · exact hmore c hc
        · rw [List.eq_of_mem_replicate hc]
          exact hg.capacity_le

/-- An inserted node is what it was given to be, parameters included: nothing has it for a
placeholder yet. -/
theorem node?_insert_self (hw : g.WellFormed) (hn : g.Admissible n) :
    (g.insert n).2.node? (g.insert n).1 = some n := by
  have hfree : g.nextId ∉ (g.attach n).placeholders := fun hmem ↦ by
    obtain ⟨c, m, hm, hp⟩ := mem_placeholders.1 hmem
    have hlt : g.nextId.index < g.capacity := by
      obtain ⟨e, he, rfl⟩ := node?_eq_some_iff.1 hm
      rw [entry?_attach hn.edges_live] at he
      split at he
      · cases he
        obtain ⟨f, hf, -⟩ := hn.placeholders _ hp
        exact index_lt_of_entry hf
      · obtain ⟨f, hf, rfl⟩ := Option.map_eq_some_iff.1 he
        exact (hw.placeholders hf hp).1
    exact Nat.lt_irrefl _ hlt
  have hnode := node?_propagate hfree [g.nextId]
  rw [node?_of_entry (entry?_attach_nextId hn.edges_live)] at hnode
  exact hnode

/-! ## Copying without a guard -/

/-- Copy a composite, with a copier for the composites met in its body. -/
def copyBy (copyInner : Copier) (g : Graph) (n : Node) (outer : Renaming) : NodeId × Graph :=
  let (fresh, g) := g.addPlaceholders 0 n.placeholders.length
  let (body, g) := g.copyBody copyInner (outer.bind n.placeholders fresh) n.body?.join
  g.insert (rebind outer fresh body n)

/-- The copier that opens every composite it meets.  Composites are opened one inside another to a
given depth; how one that lies deeper is copied is given, too. -/
def copyWithin (beyond : Copier) : Nat → Copier
  | 0 => beyond
  | depth + 1 => fun _ g n outer ↦ some (copyBy (copyWithin beyond depth) g n outer)

/-- Copy a node, with a copier for the composites met in the body of a composite. -/
def duplicateBy (copyInner : Copier) (g : Graph) (id : NodeId) :
    Except GraphError (NodeId × Graph) :=
  match g.node? id with
  | none => .error (.unknownNode id)
  | some n => if n.isComposite then .ok (copyBy copyInner g n NodeMap.empty) else g.add n

theorem copyComposite_eq_copyBy (available : List NodeId) (g : Graph) (n : Node)
    (outer : Renaming) : copyComposite available g n outer = copyBy (copier available) g n outer :=
  copyComposite_eq available g n outer

/-- The copiers do the same to every composite that the root leads to, whatever has been inserted
before. -/
def CopyAlike (g : Graph) (root : NodeId) (copyInner copyInner' : Copier) : Prop :=
  ∀ c g' n m, ReflTransGen g.Reads root c → Grows g g' → g'.node? c = some n → n.isComposite →
    Renaming.Live m g' → copyInner c g' n m = copyInner' c g' n m

section CopyAlike

variable {copyInner copyInner' : Copier} {reads : NodeSet} {root : NodeId} {m : Renaming}

theorem CopyAlike.grows (h : CopyAlike g root copyInner copyInner') (hw : g.WellFormed)
    (hroot : g.contains root) (hg : Grows g g') : CopyAlike g' root copyInner copyInner' :=
  fun c g'' n m hreach hg' ↦ h c g'' n m ((hg.reaches_iff hw hroot).1 hreach) (hg.trans hg')

theorem copyReader_congr {state : Renaming × Graph} {c : NodeId}
    (h : ∀ n, state.2.node? c = some n → n.isComposite →
      copyInner c state.2 n state.1 = copyInner' c state.2 n state.1) :
    copyReader copyInner reads state c = copyReader copyInner' reads state c := by
  obtain ⟨m, g⟩ := state
  unfold copyReader
  simp only
  split
  · rfl
  · split
    · rfl
    next inner hinner =>
      by_cases hc : inner.isComposite
      · rw [if_pos hc, if_pos hc, h inner hinner hc]
      · rw [if_neg hc, if_neg hc]

theorem foldl_copyReader_congr (hi : copyInner.Inserts) (hw : g.WellFormed)
    (h : CopyAlike g root copyInner copyInner') {ids : List NodeId}
    (hids : ∀ c ∈ ids, ReflTransGen g.Reads root c) {state : Renaming × Graph}
    (hs : Copied g state) :
    ids.foldl (copyReader copyInner reads) state =
      ids.foldl (copyReader copyInner' reads) state := by
  induction ids generalizing state with
  | nil => rfl
  | cons c ids ih =>
      have hhead : copyReader copyInner reads state c = copyReader copyInner' reads state c :=
        copyReader_congr fun n hn hc ↦
          h c state.2 n state.1 (hids c List.mem_cons_self) hs.grows hn hc hs.live
      rw [List.foldl_cons, List.foldl_cons, ← hhead]
      exact ih (fun d hd ↦ hids d (List.mem_cons_of_mem c hd)) (hs.copyReader hi hw reads c)

theorem copyBody_congr (hi : copyInner.Inserts) (hw : g.WellFormed) (hm : m.Live g) {body : Edge}
    (h : ∀ root ∈ body, CopyAlike g root copyInner copyInner') :
    g.copyBody copyInner m body = g.copyBody copyInner' m body := by
  cases body with
  | none => rfl
  | some root =>
      simp only [copyBody]
      rw [foldl_copyReader_congr hi hw (h root rfl) (fun c hc ↦ reaches_of_mem_postOrder hc)
        ⟨.refl, hm⟩]

theorem copyBy_congr (hi : copyInner.Inserts) (hw : g.WellFormed) (hm : m.Live g)
    (hn : ∀ s ∈ n.edges, g.contains s)
    (h : ∀ root ∈ n.body?.join, CopyAlike g root copyInner copyInner') :
    copyBy copyInner g n m = copyBy copyInner' g n m := by
  have hf := fresh_addPlaceholders g 0 n.placeholders.length
  have hlive : (m.bind n.placeholders (g.addPlaceholders 0 n.placeholders.length).1).Live
      (g.addPlaceholders 0 n.placeholders.length).2 := (hm.grows hf.grows).bind hf.contains
  have hbody := copyBody_congr hi (hf.grows.wellFormed hw) hlive fun root hroot ↦
    (h root hroot).grows hw
      (hn root (Node.mem_edges_of_port? (Option.join_eq_some_iff.1 hroot))) hf.grows
  unfold copyBy
  simp only
  rw [hbody]

end CopyAlike

/-- No composite is reachable from its own body. -/
def BodiesOpen (g : Graph) : Prop :=
  ∀ c n body, g.node? c = some n → n.body?.join = some body → ¬ ReflTransGen g.Reads body c

/-- Every composite that the body leads to may be opened. -/
def Openable (g : Graph) (available : List NodeId) (body : Edge) : Prop :=
  ∀ root ∈ body, ∀ c n, ReflTransGen g.Reads root c → g.node? c = some n → n.isComposite →
    c ∈ available

/-- Having opened a composite that the body leads to, every composite that its own body leads to may
still be opened. -/
theorem Openable.erase (ho : g.BodiesOpen) {available : List NodeId} {body : Edge} {root c : NodeId}
    (h : g.Openable available body) (hroot : root ∈ body) (hreach : ReflTransGen g.Reads root c)
    (hn : g.node? c = some n) : g.Openable (available.erase c) n.body?.join := by
  intro root' hroot' d k hd hk hc
  have hbody : g.Reads c root' := by
    rw [Reads, edges_of_node? hn]
    exact Node.mem_edges_of_port? (Option.join_eq_some_iff.1 hroot')
  have hne : d ≠ c := by
    rintro rfl
    exact ho d n root' hn hroot' hd
  exact (List.mem_erase_of_ne hne).2 (h root hroot d k ((hreach.tail hbody).trans hd) hk hc)

theorem Openable.composites (ho : g.BodiesOpen) (hn : g.node? id = some n) :
    g.Openable (g.composites.erase id) n.body?.join := by
  intro root hroot c k hreach hk hc
  have hne : c ≠ id := by
    rintro rfl
    exact ho c n root hn hroot hreach
  refine (List.mem_erase_of_ne hne).2 (List.mem_filter.2 ⟨?_, ?_⟩)
  · exact mem_ids.2 (contains_of_node? hk)
  · rw [hk]
    exact hc

/-- Where no composite is reachable from its own body, the guard is never needed, and composites are
opened one inside another no deeper than there are such that may be opened. -/
theorem copyAlike_copyWithin (hw : g.WellFormed) (ho : g.BodiesOpen) (beyond : Copier)
    {available : List NodeId} {depth : Nat} (hdepth : available.length ≤ depth) {body : Edge}
    (hopen : g.Openable available body) {root : NodeId} (hroot : root ∈ body)
    (hlive : g.contains root) : CopyAlike g root (copier available) (copyWithin beyond depth) := by
  induction depth generalizing available body root with
  | zero =>
      intro c g' k m hreach hg hk hc _
      have hmem := hopen root hroot c k hreach
        (hg.node?_of_node? (hw.contains_of_reaches hlive hreach) hk hc) hc
      rw [List.length_eq_zero_iff.1 (Nat.le_zero.1 hdepth)] at hmem
      cases hmem
  | succ depth ih =>
      intro c g' k m hreach hg hk hc hm
      have hk₀ := hg.node?_of_node? (hw.contains_of_reaches hlive hreach) hk hc
      have hmem := hopen root hroot c k hreach hk₀ hc
      have hlength : (available.erase c).length ≤ depth := by
        have := length_erase_lt hmem
        omega
      obtain ⟨e, he, rfl⟩ := node?_eq_some_iff.1 hk₀
      have hedges : ∀ s ∈ e.node.edges, g.contains s := fun s hs ↦ hw.edges_live he hs
      rw [copier_eq_some_iff.2 ⟨hmem, rfl⟩, copyComposite_eq_copyBy]
      refine congrArg some (copyBy_congr (inserts_copier _) (hg.wellFormed hw) hm
        (fun s hs ↦ hg.contains (hedges s hs)) fun root' hroot' ↦ ?_)
      have hlive' := hedges root' (Node.mem_edges_of_port? (Option.join_eq_some_iff.1 hroot'))
      exact (ih hlength (hopen.erase ho hroot hreach hk₀) hroot' hlive').grows hw hlive' hg

theorem duplicateBy_copyWithin (hw : g.WellFormed) (ho : g.BodiesOpen) (beyond : Copier)
    {depth : Nat} (hdepth : g.composites.length ≤ depth) (id : NodeId) :
    g.duplicateBy (copyWithin beyond depth) id = g.duplicate id := by
  unfold duplicateBy duplicate
  cases hn : g.node? id with
  | none => rfl
  | some n =>
      obtain ⟨e, he, rfl⟩ := node?_eq_some_iff.1 hn
      simp only
      split
      next hc =>
        have hlength : (g.composites.erase id).length ≤ depth :=
          (List.length_erase_le ..).trans hdepth
        have hcopy := copyBy_congr (m := NodeMap.empty) (inserts_copier _) hw
          (Renaming.live_empty g) (fun s hs ↦ hw.edges_live he hs) fun root hroot ↦
            copyAlike_copyWithin hw ho beyond hlength (Openable.composites ho hn) hroot
              (hw.edges_live he (Node.mem_edges_of_port? (Option.join_eq_some_iff.1 hroot)))
        rw [copyComposite_eq_copyBy, hcopy]
      · rfl

/-! ## The copy -/

/-- What stands at the place of a copy: the node itself or, for a composite, one of its kind with its
arguments and with new parameters for placeholders. -/
structure CopiedNode (g g' : Graph) (n m : Node) : Prop where
  eq_of_not_composite : n.isComposite = false → m = n
  kind_eq : m.kind = n.kind
  sources_eq : m.sources = n.sources
  length_placeholders : m.placeholders.length = n.placeholders.length
  nodup : m.placeholders.Nodup
  new : ∀ p ∈ m.placeholders, g.capacity ≤ p.index ∧ ∃ i t, g'.node? p = some (.parameter i t)

theorem kind_rebind {m : Renaming} {ps : List NodeId} {body : Edge} :
    (rebind m ps body n).kind = n.kind := by cases n <;> rfl

theorem Renaming.edge_empty (e : Edge) : Renaming.edge NodeMap.empty e = e := by
  simp [Renaming.edge]

/-- A live node can be copied, and the copy is new. -/
theorem exists_copy_of_live (hw : g.WellFormed) (hn : g.node? id = some n) :
    ∃ copy g', g.duplicate id = .ok (copy, g') ∧ OwnsLater g g' ∧ g.capacity ≤ copy.index ∧
      ∃ m, g'.node? copy = some m ∧ CopiedNode g g' n m := by
  obtain ⟨e, he, rfl⟩ := node?_eq_some_iff.1 hn
  have hedges : ∀ s ∈ e.node.edges, g.contains s := fun s hs ↦ hw.edges_live he hs
  unfold duplicate
  rw [hn]
  by_cases hc : e.node.isComposite
  · obtain ⟨fresh, body, hf, -, hg, hadm, heq⟩ := exists_copyComposite
      (inserts_copier (g.composites.erase id)) hw hedges hc (Renaming.live_empty g)
    have hgrows := hf.grows.trans hg
    have hplaceholders : (rebind NodeMap.empty fresh.1 body.1 e.node).placeholders = fresh.1 :=
      placeholders_rebind hf.length_eq
    have happart := apart_copyComposite (keepsApart_copier (g.composites.erase id)) hw hedges hc
      (Renaming.live_empty g)
    simp only [hc, if_true]
    rw [heq] at happart ⊢
    refine ⟨_, _, rfl, happart.ownsLater, hgrows.capacity_le, _,
      node?_insert_self (hgrows.wellFormed hw) hadm, ?_⟩
    constructor
    case eq_of_not_composite => exact fun h ↦ by rw [hc] at h; cases h
    case kind_eq => exact kind_rebind
    case sources_eq => rw [sources_rebind, funext Renaming.edge_empty, List.map_id']
    case length_placeholders => rw [hplaceholders, hf.length_eq]
    case nodup =>
      rw [hplaceholders]
      exact hf.nodup
    case new =>
      intro p hp
      rw [hplaceholders] at hp
      obtain ⟨f, hlive, hpar⟩ := hf.parameter p hp _ (hg.insert hadm)
      obtain ⟨i, t, hnode⟩ := Node.exists_parameter_of_isParameter hpar
      exact ⟨hf.later p hp, i, t, node?_eq_some_iff.2 ⟨f, hlive, hnode⟩⟩
  · have hc : e.node.isComposite = false := by simpa using hc
    have hp := Node.placeholders_of_not_composite hc
    have hadm : g.Admissible e.node := .of_edges hedges (hw.arity he) hp
    simp only [hc, Bool.false_eq_true, if_false]
    refine ⟨_, _, add_eq_ok_iff.2 ⟨hadm, rfl⟩, ((Apart.refl g).insert_of_nil hadm hp).ownsLater,
      Nat.le_refl _, e.node, node?_insert_self hw hadm, fun _ ↦ rfl, rfl, rfl, rfl, ?_, ?_⟩
    · rw [hp]
      exact .nil
    · rw [hp]
      exact fun _ h ↦ by cases h

/-! ## Runs -/

/-- A copy comes about and only adds.  In a graph in which no composite is reachable from its own
body, a live node can be copied: composites are opened one inside another no deeper than there are
composites, so that what a copier without a guard would do with a deeper one does not matter, and no
check on the way fails.  What was live keeps its node and its type, and gains consumers only after
those it had, all of them new.  Everything else that is live is new, the copy among it, which is the
node itself or a composite of its kind with the same arguments and new placeholders. -/
theorem duplicate_only_adds (actions : List Action) (hn : (after actions).node? id = some n)
    (hopen : (after actions).BodiesOpen) :
    let g := after actions
    ∃ copy g', g.duplicate id = .ok (copy, g') ∧
      (∀ beyond depth, g.composites.length ≤ depth →
        g.duplicateBy (copyWithin beyond depth) id = .ok (copy, g')) ∧
      InPlace.duplicate id g = .ok copy g' ∧
      (∀ j e, g.entry? j = some e → ∃ more,
        g'.entry? j = some { e with dependents := e.dependents ++ more } ∧
          ∀ c ∈ more, g.capacity ≤ c.index) ∧
      (∀ j, g'.contains j → g.contains j ∨ g.capacity ≤ j.index) ∧
      g.capacity ≤ copy.index ∧ ∃ m, g'.node? copy = some m ∧ CopiedNode g g' n m := by
  intro g
  have hw : g.WellFormed := wellFormed_after actions
  obtain ⟨copy, g', hcopy, hlater, hnew, hnode⟩ := exists_copy_of_live hw hn
  have hg := grows_duplicate hw hcopy
  refine ⟨copy, g', hcopy, fun beyond depth hdepth ↦ ?_, ?_, hg.gains hw hlater,
    fun j hj ↦ hg.contains_or_later hw hj, hnew, hnode⟩
  · rw [duplicateBy_copyWithin hw hopen beyond hdepth id, hcopy]
  · rw [InPlace.duplicate_eq hw, hcopy]
    rfl

/-- A composite whose body passes its placeholder on to another composite. -/
def passedPlaceholder : List Action :=
  [.parameter 0 (.of .float), .compositeUnary, .compositeUnary, .unary .negate ⟨3⟩, .output ⟨5⟩,
    .setBody ⟨4⟩ ⟨6⟩, .setEdge ⟨4⟩ .input (some ⟨1⟩), .output ⟨4⟩, .setBody ⟨2⟩ ⟨7⟩,
    .setEdge ⟨2⟩ .input (some ⟨0⟩)]

/-- The copy reads the parameter, which gains it for a consumer after the composite. -/
theorem duplicate_passedPlaceholder :
    (after passedPlaceholder).dependents ⟨0⟩ = [⟨2⟩] ∧
      ∃ copy g', (after passedPlaceholder).duplicate ⟨2⟩ = .ok (copy, g') ∧
        g'.type? ⟨0⟩ = (after passedPlaceholder).type? ⟨0⟩ ∧
        ∃ m, g'.node? copy = some m ∧ m.kind = "composite-unary" ∧ m.sources = [some ⟨0⟩] := by
  have hacyclic : (after passedPlaceholder).Acyclic :=
    @acyclic_of_findAnyCycle _ ⟨7⟩ (by decide +kernel)
  have hn : (after passedPlaceholder).node? ⟨2⟩ = some (.compositeUnary (some ⟨0⟩) (some ⟨7⟩) ⟨1⟩) := by
    decide +kernel
  obtain ⟨copy, g', hcopy, -, -, hgains, -, -, m, hm, hnode⟩ :=
    duplicate_only_adds passedPlaceholder hn fun c m body hm hbody hreach ↦ by
      refine hacyclic c (TransGen.head' ?_ hreach)
      rw [Reads, edges_of_node? hm]
      exact Node.mem_edges_of_port? (Option.join_eq_some_iff.1 hbody)
  refine ⟨by decide +kernel, copy, g', hcopy, ?_, m, hm, hnode.kind_eq, hnode.sources_eq⟩
  obtain ⟨e, he⟩ : ∃ e, entry? (after passedPlaceholder) ⟨0⟩ = some e := by
    rw [← contains_iff]
    decide +kernel
  obtain ⟨more, he', -⟩ := hgains ⟨0⟩ e he
  rw [type?_of_entry he', type?_of_entry he]

end FieldGraph.Graph
