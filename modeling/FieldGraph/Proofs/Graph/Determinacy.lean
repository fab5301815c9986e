import FieldGraph.Proofs.Graph.Placeholders
import FieldGraph.Proofs.Graph.Settling

/-!
# Types and the history of a graph

A consistent type follows from the types of the nodes that are read, and the type that a placeholder
declares from the type of its argument.  Where neither goes round in a circle, the live nodes
determine all types, however they were edited into place.  Along a circle they do not: a type may
support itself there.
-/

namespace FieldGraph.Graph

open Relation

variable {g g' : Graph}

/-- The nodes that the type of a node is drawn from: those that it reads, and the arguments that it
stands for. -/
def drawn (g : Graph) (id : NodeId) : List NodeId :=
  g.edges id ++ (g.arguments.filter (·.1 = id)).filterMap Prod.snd

def Draws (g : Graph) (a b : NodeId) : Prop := b ∈ g.drawn a

/-- The graphs have the same live nodes, except that parameters may be found at other positions and
that placeholders may declare other types. -/
structure SameNodes (g g' : Graph) : Prop where
  live : ∀ id, g'.contains id = g.contains id
  node : ∀ ⦃id n⦄, g.node? id = some n → n.isParameter = false → g'.node? id = some n
  declared : ∀ ⦃id i t⦄, g.node? id = some (.parameter i t) →
    ∃ i' t', g'.node? id = some (.parameter i' t') ∧ (id ∉ g.placeholders → t' = t)

theorem draws_of_mem_edges {id s : NodeId} {n : Node} (hn : g.node? id = some n)
    (hs : s ∈ n.edges) : g.Draws id s :=
  List.mem_append_left _ (edges_of_node? hn ▸ hs)

theorem draws_of_mem_arguments {p s c : NodeId} {n : Node} (hn : g.node? c = some n)
    (h : (p, some s) ∈ n.arguments) : g.Draws p s := by
  refine List.mem_append_right _ (List.mem_filterMap.2 ⟨(p, some s), ?_, rfl⟩)
  exact List.mem_filter.2 ⟨mem_arguments.2 ⟨c, n, hn, h⟩, by simp⟩

/-- Only nodes and placeholders draw their type from others. -/
theorem index_lt_of_draws (hw : g.WellFormed) {a b : NodeId} (h : g.Draws a b) :
    a.index < g.capacity := by
  rcases List.mem_append.1 h with h | h
  · obtain ⟨n, hn, -⟩ := exists_node_of_mem_edges h
    obtain ⟨e, he, -⟩ := node?_eq_some_iff.1 hn
    exact index_lt_of_entry he
  · obtain ⟨c, hc, -⟩ := List.mem_filterMap.1 h
    obtain ⟨hc, ha⟩ := List.mem_filter.1 hc
    obtain ⟨id, n, hn, hc⟩ := mem_arguments.1 hc
    refine hw.index_lt_of_mem_placeholders hn ?_
    rw [← Node.arguments_map_fst]
    exact List.mem_map.2 ⟨c, hc, by simpa using ha⟩

/-- Types that are inferred along the edges and declared along the arguments are determined by the
live nodes, if they are not drawn in a circle. -/
theorem SameNodes.type?_eq (h : SameNodes g g') (hw : g.WellFormed) (hc : g.Consistent)
    (hc' : g'.Consistent) (hm : ∀ p, g.MirrorsBut p []) (hm' : ∀ p, g'.MirrorsBut p [])
    (ha : ∀ id, ¬ TransGen g.Draws id id) (id : NodeId) : g'.type? id = g.type? id := by
  have hwf : WellFounded fun b a ↦ g.Draws a b :=
    wellFounded_of_acyclic (fun _ _ ↦ index_lt_of_draws hw) ha
  induction id using hwf.induction with
  | _ id ih =>
    have edge {e : Edge} (he : ∀ s ∈ e, g.Draws id s) : g'.edgeType e = g.edgeType e :=
      edgeType_congr fun s hs ↦ ih s (he s hs)
    have hlive := h.live id
    cases he : g.entry? id with
    | none =>
        rw [contains_eq, contains_eq, he, Option.isSome_none, Option.isSome_eq_false_iff,
          Option.isNone_iff_eq_none] at hlive
        rw [type?, type?, he, hlive]
    | some e =>
        rw [contains_of_entry he] at hlive
        obtain ⟨e', he'⟩ := contains_iff.1 hlive
        rw [type?_of_entry he, type?_of_entry he', hc id e he, hc' id e' he']
        have hn := node?_of_entry he
        have hn' := node?_of_entry he'
        cases hpar : e.node.isParameter with
        | false =>
            have hsame := h.node hn hpar
            rw [hn'] at hsame
            rw [Option.some.inj hsame]
            exact congrArg some (infer_congr fun s hs ↦ ih s (draws_of_mem_edges hn hs))
        | true =>
            obtain ⟨i, t, hnode⟩ := Node.exists_parameter_of_isParameter hpar
            rw [hnode] at hn
            obtain ⟨i', t', hsame, ht⟩ := h.declared hn
            rw [hn'] at hsame
            rw [hnode, Option.some.inj hsame]
            rw [Option.some.inj hsame] at hn'
            change some t' = some t
            by_cases hp : id ∈ g.placeholders
            · -- a composite has declared the type of an argument on the placeholder in both graphs
              obtain ⟨c, m, hmc, hpm⟩ := mem_placeholders.1 hp
              obtain ⟨a, hlast⟩ := exists_lastArgument? hpm
              have hmpar : m.isParameter = false := by
                cases m with
                | parameter => cases hpm
                | _ => rfl
              have hm'c := h.node hmc hmpar
              rw [hm id hmc List.not_mem_nil hlast hn, hm' id hm'c List.not_mem_nil hlast hn']
              refine congrArg some (edge ?_)
              rintro s rfl
              exact draws_of_mem_arguments hmc (mem_of_lastArgument? hlast)
            · rw [ht hp]

/-- Two runs of edits in which every propagation has come to rest, and which neither share
placeholders nor redeclare them by hand, give every node the same type if they end with the same
live nodes and types are not drawn in a circle there. -/
theorem type?_eq_of_sameNodes {actions actions' : List Action}
    (h : (after actions).settled = true) (h' : (after actions').settled = true)
    (hp : ∀ p, Spared actions p) (hp' : ∀ p, Spared actions' p)
    (hsame : SameNodes (after actions) (after actions'))
    (ha : ∀ id, ¬ TransGen (after actions).Draws id id) (id : NodeId) :
    (after actions').type? id = (after actions).type? id :=
  hsame.type?_eq (wellFormed_after actions) (consistent_of_settled h (List.prefix_refl _))
    (consistent_of_settled h' (List.prefix_refl _)) (fun p ↦ (hp p).mirrorsBut h)
    (fun p ↦ (hp' p).mirrorsBut h') ha id

/-- Graphs that agree in every position up to a bound have the same nodes, if they reach no
further. -/
theorem SameNodes.of_bound (bound : Nat) (hg : g.capacity ≤ bound) (hg' : g'.capacity ≤ bound)
    (h : ∀ i < bound, g'.node? ⟨i⟩ = g.node? ⟨i⟩) : SameNodes g g' := by
  have beyond {k : Graph} (hk : k.capacity ≤ bound) {id : NodeId} (hid : ¬ id.index < bound) :
      k.node? id = none := by
    rw [Option.eq_none_iff_forall_ne_some]
    rintro n hn
    obtain ⟨e, he, -⟩ := node?_eq_some_iff.1 hn
    exact hid (Nat.lt_of_lt_of_le (index_lt_of_entry he) hk)
  have heq (id : NodeId) : g'.node? id = g.node? id := by
    by_cases hid : id.index < bound
    · exact h id.index hid
    · rw [beyond hg hid, beyond hg' hid]
  refine ⟨fun id ↦ ?_, fun id n hn _ ↦ heq id ▸ hn, fun id i t hn ↦ ⟨i, t, heq id ▸ hn, fun _ ↦ rfl⟩⟩
  have hid := congrArg Option.isSome (heq id)
  rwa [node?, node?, Option.isSome_map, Option.isSome_map] at hid

/-- The composite on a scalar, which becomes a vector at last. -/
def wiredFirst : List Action := wiredComposite ++ [.setConstant ⟨0⟩ (.float2 ⟨1, 2⟩)]

/-- The same composite on the vector, with another body at first, which reads the composite. -/
def wiredLast : List Action :=
  [.constant (.float2 ⟨1, 2⟩), .compositeUnary, .unary .length ⟨1⟩, .output ⟨2⟩,
    .setBody ⟨2⟩ ⟨4⟩, .setEdge ⟨4⟩ .input (some ⟨3⟩), .setUnaryOp ⟨3⟩ .negate,
    .setEdge ⟨2⟩ .input (some ⟨0⟩)]

/-- Both ways lead to a composite that is a vector of two components. -/
theorem type?_wiredLast :
    (after wiredLast).type? ⟨2⟩ = (after wiredFirst).type? ⟨2⟩ ∧
      (after wiredFirst).type? ⟨2⟩ = some (.of .float2) := by
  have spared {actions : List Action} (h : ∀ a ∈ actions, ∀ g p, ¬ a.TakesOver g p ∧
      ¬ a.Redeclares g p) (p : NodeId) : Spared actions p :=
    ⟨fun k hk ↦ (h _ (List.getElem_mem hk) _ p).1, fun k hk ↦ (h _ (List.getElem_mem hk) _ p).2⟩
  have hsame : SameNodes (after wiredFirst) (after wiredLast) :=
    .of_bound 5 (by decide +kernel) (by decide +kernel) (by decide +kernel)
  have hrank : ∀ i < (after wiredFirst).capacity, ∀ b ∈ (after wiredFirst).drawn ⟨i⟩,
      [2, 4, 3, 1, 0].idxOf i < [2, 4, 3, 1, 0].idxOf b.index := by decide +kernel
  have ha : ∀ id, ¬ TransGen (after wiredFirst).Draws id id :=
    acyclic_of_rank (fun id ↦ [2, 4, 3, 1, 0].idxOf id.index) fun a b hd ↦
      hrank a.index (index_lt_of_draws (wellFormed_after _) hd) b hd
  refine ⟨type?_eq_of_sameNodes (by decide +kernel) (by decide +kernel) (spared ?_) (spared ?_)
    hsame ha ⟨2⟩, by decide +kernel⟩ <;>
  · intro a hmem g p
    simp only [wiredFirst, wiredComposite, wiredLast, List.cons_append, List.nil_append,
      List.mem_cons, List.not_mem_nil, or_false] at hmem
    rcases hmem with rfl | rfl | rfl | rfl | rfl | rfl | rfl | rfl <;> exact ⟨id, id⟩

/-- Two outputs that read each other, after one of them has read a scalar. -/
def circle : List Action :=
  [.constant (.float 1), .output ⟨0⟩, .output ⟨1⟩, .setEdge ⟨1⟩ .input (some ⟨2⟩)]

/-- The same outputs, neither of which has had a type before they read each other. -/
def emptyCircle : List Action :=
  [.constant (.float 1), .output ⟨0⟩, .disconnect ⟨1⟩ .input, .output ⟨1⟩,
    .setEdge ⟨1⟩ .input (some ⟨2⟩)]

/-- Along a circle a type may outlive what it was inferred from. -/
theorem type?_ne_of_circle :
    SameNodes (after emptyCircle) (after circle) ∧ (after circle).settled = true ∧
      (after emptyCircle).settled = true ∧ (after circle).type? ⟨1⟩ = some (.of .float) ∧
      (after emptyCircle).type? ⟨1⟩ = some .none :=
  ⟨.of_bound 3 (by decide +kernel) (by decide +kernel) (by decide +kernel),
    by decide +kernel, by decide +kernel, by decide +kernel, by decide +kernel⟩

end FieldGraph.Graph
