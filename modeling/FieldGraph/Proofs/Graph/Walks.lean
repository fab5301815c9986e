import FieldGraph.Proofs.Graph.Entries
import Mathlib.Data.Fintype.Card
import Mathlib.Data.Fintype.EquivFin
import Mathlib.Logic.Relation
import Mathlib.Tactic.Tauto

/-!
# What a walk finds

A walk that is not stopped enters exactly the live nodes that the roots lead to, and finishes each
of them after all it leads to, except for what leads back to it.  A walk that looks for cycles and
is not stopped has finished every node strictly after what it leads to; one that is stopped has met
a node that leads to itself.
-/

namespace FieldGraph.Graph

open Relation

/-- A relation without cycles, in which only finitely many nodes lead anywhere, has no infinite
chain. -/
theorem wellFounded_of_acyclic {r : NodeId → NodeId → Prop} {bound : Nat}
    (hb : ∀ a b, r a b → a.index < bound) (ha : ∀ id, ¬ TransGen r id id) :
    WellFounded fun b a ↦ r a b := by
  let below (j i : Fin bound) : Prop := TransGen r ⟨i⟩ ⟨j⟩
  have : IsTrans (Fin bound) below := ⟨fun _ _ _ h h' ↦ h'.trans h⟩
  have : Std.Irrefl below := ⟨fun i ↦ ha ⟨i⟩⟩
  have hwf : WellFounded below := Finite.wellFounded_of_trans_of_irrefl below
  have dead (id : NodeId) (h : ¬ id.index < bound) : Acc (fun b a ↦ r a b) id :=
    .intro _ fun b hr ↦ absurd (hb id b hr) h
  have live (i : Fin bound) : Acc (fun b a ↦ r a b) ⟨i⟩ := by
    induction i using hwf.induction with
    | _ i ih =>
        refine .intro _ fun b hr ↦ ?_
        by_cases h : b.index < bound
        · exact ih ⟨b.index, h⟩ (.single hr)
        · exact dead b h
  exact ⟨fun id ↦ if h : id.index < bound then live ⟨id.index, h⟩ else dead id h⟩

/-- A relation along which a rank rises has no cycle. -/
theorem acyclic_of_rank {r : NodeId → NodeId → Prop} (rank : NodeId → Nat)
    (h : ∀ a b, r a b → rank a < rank b) (id : NodeId) : ¬ TransGen r id id := by
  have rises {a b : NodeId} (hr : TransGen r a b) : rank a < rank b := by
    induction hr with
    | single hr => exact h _ _ hr
    | tail _ hr ih => exact ih.trans (h _ _ hr)
  exact fun hr ↦ Nat.lt_irrefl _ (rises hr)

/-- The nodes that a live node leads to in a walk. -/
def ahead (g : Graph) (next : Node → List NodeId) (id : NodeId) : List NodeId :=
  ((g.node? id).map next).getD []

def Leads (g : Graph) (next : Node → List NodeId) (a b : NodeId) : Prop := b ∈ g.ahead next a

variable {g : Graph} {next : Node → List NodeId}

theorem ahead_of_node? {id : NodeId} {n : Node} (h : g.node? id = some n) :
    g.ahead next id = next n := by rw [ahead, h]; rfl

theorem contains_of_node? {id : NodeId} {n : Node} (h : g.node? id = some n) : g.contains id := by
  obtain ⟨e, he, -⟩ := node?_eq_some_iff.1 h
  exact contains_of_entry he

theorem not_contains_of_node? {id : NodeId} (h : g.node? id = none) : ¬ g.contains id := by
  rw [node?, Option.map_eq_none_iff] at h
  simp [contains_eq, h]

namespace Walk

section Invariant

variable (g : Graph) (next : Node → List NodeId) (stop : Bool) (roots : List NodeId)

/-- What has been looked at from a node is dead, finished, or open, and then it leads back. -/
def Looked (entered finished : List NodeId) (id s : NodeId) : Prop :=
  g.contains s → s ∈ finished ∨
    (stop = false ∧ s ∈ entered ∧ ReflTransGen (g.Leads next) s id)

/-- Each finished node, latest first, has looked at all it leads to. -/
def Ordered (entered : List NodeId) : List NodeId → Prop
  | [] => True
  | id :: earlier =>
    (∀ s ∈ g.ahead next id, Looked g next stop entered earlier id s) ∧ Ordered entered earlier

/-- Of all that an open node leads to, what comes before the listed nodes has been looked at.  The
node entered from it is the first one that it has not looked at. -/
def Frames (entered finished : List NodeId) : List (NodeId × List NodeId) → List NodeId → Prop
  | [], todo => ∃ done, roots = done ++ todo ∧ ∀ s ∈ done, g.contains s → s ∈ finished
  | (id, rest) :: path, todo =>
    (∃ done, g.ahead next id = done ++ todo ∧
        ∀ s ∈ done, Looked g next stop entered finished id s) ∧
      Frames entered finished path (id :: rest)

/-- What holds of a walk under way. -/
structure Invariant (s : State) : Prop where
  seen_iff : ∀ id, s.seen.contains id ↔ id ∈ s.entered
  entered_iff : ∀ id, id ∈ s.entered ↔ id ∈ s.finished ∨ id ∈ s.path.map Prod.fst
  nodup : (s.finished ++ s.path.map Prod.fst).Nodup
  live : ∀ id ∈ s.entered, g.contains id
  reached : ∀ id ∈ s.entered, ∃ r ∈ roots, ReflTransGen (g.Leads next) r id
  frames : Frames g next stop roots s.entered s.finished s.path s.todo
  ordered : Ordered g next stop s.entered s.finished

/-- What holds of a walk at its end. -/
structure Explores (w : Walk) : Prop where
  live : ∀ id ∈ w.entered, g.contains id
  reached : ∀ id ∈ w.entered, ∃ r ∈ roots, ReflTransGen (g.Leads next) r id
  entered_of_finished : ∀ id ∈ w.finished, id ∈ w.entered
  nodup : w.finished.Nodup
  ordered : Ordered g next stop w.entered w.finished.reverse
  finished_of_entered : w.cycle = none → ∀ id ∈ w.entered, id ∈ w.finished
  finished_of_root : w.cycle = none → ∀ r ∈ roots, g.contains r → r ∈ w.finished
  cycle : ∀ c, w.cycle = some c →
    ∃ id rest, c = id :: rest ∧ id ∈ w.entered ∧ TransGen (g.Leads next) id id

end Invariant

variable {stop : Bool} {roots : List NodeId} {entered finished todo : List NodeId}
  {path : List (NodeId × List NodeId)}

theorem Looked.mono {entered' finished' : List NodeId} {id s : NodeId}
    (h : Looked g next stop entered finished id s) (he : ∀ i ∈ entered, i ∈ entered')
    (hf : ∀ i ∈ finished, i ∈ finished') : Looked g next stop entered' finished' id s :=
  fun hs ↦ (h hs).imp (hf s) fun ⟨hb, hmem, hr⟩ ↦ ⟨hb, he s hmem, hr⟩

theorem Ordered.mono {entered' : List NodeId} (h : Ordered g next stop entered finished)
    (he : ∀ i ∈ entered, i ∈ entered') : Ordered g next stop entered' finished := by
  induction finished with
  | nil => trivial
  | cons id earlier ih => exact ⟨fun s hs ↦ (h.1 s hs).mono he fun _ hi ↦ hi, ih h.2⟩

theorem Ordered.looked {later earlier : List NodeId} {id : NodeId}
    (h : Ordered g next stop entered (later ++ id :: earlier)) :
    ∀ s ∈ g.ahead next id, Looked g next stop entered earlier id s := by
  induction later with
  | nil => exact h.1
  | cons _ later ih => exact ih h.2

theorem Frames.mono {entered' finished' : List NodeId}
    (h : Frames g next stop roots entered finished path todo) (he : ∀ i ∈ entered, i ∈ entered')
    (hf : ∀ i ∈ finished, i ∈ finished') :
    Frames g next stop roots entered' finished' path todo := by
  induction path generalizing todo with
  | nil =>
      obtain ⟨done, hroots, hdone⟩ := h
      exact ⟨done, hroots, fun s hs hl ↦ hf s (hdone s hs hl)⟩
  | cons frame path ih =>
      obtain ⟨⟨done, hahead, hdone⟩, h⟩ := h
      exact ⟨⟨done, hahead, fun s hs ↦ (hdone s hs).mono he hf⟩, ih h⟩

/-- Going past a node that is dead or finished, or that is open and leads back. -/
theorem Frames.advance {s : NodeId} (h : Frames g next stop roots entered finished path (s :: todo))
    (hs : g.contains s → s ∈ finished ∨ (stop = false ∧ s ∈ entered ∧ s ∈ path.map Prod.fst ∧
      ∀ frame ∈ path.head?, ReflTransGen (g.Leads next) s frame.1)) :
    Frames g next stop roots entered finished path todo := by
  cases path with
  | nil =>
      obtain ⟨done, hroots, hdone⟩ := h
      refine ⟨done ++ [s], by rw [hroots, List.append_assoc]; rfl, fun i hi hl ↦ ?_⟩
      rcases List.mem_append.1 hi with hi | hi
      · exact hdone i hi hl
      · cases List.mem_singleton.1 hi
        rcases hs hl with h | ⟨-, -, h, -⟩
        · exact h
        · cases h
  | cons frame path =>
      obtain ⟨⟨done, hahead, hdone⟩, h⟩ := h
      refine ⟨⟨done ++ [s], by rw [hahead, List.append_assoc]; rfl, fun i hi ↦ ?_⟩, h⟩
      rcases List.mem_append.1 hi with hi | hi
      · exact hdone i hi
      · cases List.mem_singleton.1 hi
        exact fun hl ↦ (hs hl).imp_right fun ⟨hb, hmem, _, hr⟩ ↦ ⟨hb, hmem, hr frame rfl⟩

/-- Every open node leads to the innermost one. -/
theorem Frames.leads {frame : NodeId × List NodeId}
    (h : Frames g next stop roots entered finished (frame :: path) todo) {id : NodeId}
    (hid : id ∈ (frame :: path).map Prod.fst) : ReflTransGen (g.Leads next) id frame.1 := by
  induction path generalizing frame todo with
  | nil =>
      rw [List.map_cons, List.map_nil, List.mem_singleton] at hid
      rw [hid]
  | cons outer path ih =>
      rcases List.mem_cons.1 hid with rfl | hid
      · exact .refl
      · obtain ⟨-, h⟩ := h
        refine (ih h hid).tail ?_
        obtain ⟨⟨done, hahead, -⟩, -⟩ := h
        change frame.1 ∈ g.ahead next outer.1
        simp [hahead]

/-- What is looked at next is a root, or the innermost open node leads to it. -/
theorem Frames.leads_head {s : NodeId}
    (h : Frames g next stop roots entered finished path (s :: todo)) :
    (path = [] ∧ s ∈ roots) ∨ ∃ frame outer, path = frame :: outer ∧ g.Leads next frame.1 s := by
  cases path with
  | nil =>
      obtain ⟨done, hroots, -⟩ := h
      exact .inl ⟨rfl, by simp [hroots]⟩
  | cons frame path =>
      obtain ⟨⟨done, hahead, -⟩, -⟩ := h
      refine .inr ⟨frame, path, rfl, ?_⟩
      change s ∈ g.ahead next frame.1
      simp [hahead]

/-! ## One step -/

namespace Invariant

theorem start (g : Graph) (next : Node → List NodeId) (stop : Bool) (roots : List NodeId) :
    Invariant g next stop roots (State.start roots) where
  seen_iff id := by simp [State.start, NodeMap.contains_eq]
  entered_iff id := by simp [State.start]
  nodup := .nil
  live _ h := by cases h
  reached _ h := by cases h
  frames := ⟨[], rfl, fun _ h ↦ by cases h⟩
  ordered := trivial

variable {seen : NodeSet} {id : NodeId}

theorem finish {rest : List NodeId}
    (h : Invariant g next stop roots ⟨seen, entered, finished, (id, rest) :: path, []⟩) :
    Invariant g next stop roots ⟨seen, entered, id :: finished, path, rest⟩ where
  seen_iff := h.seen_iff
  entered_iff i := by
    rw [h.entered_iff]
    simp only [List.map_cons, List.mem_cons]
    tauto
  nodup := List.nodup_middle.1 h.nodup
  live := h.live
  reached := h.reached
  frames := by
    obtain ⟨-, hf⟩ := h.frames
    have hf := hf.mono (fun _ hi ↦ hi) fun _ hi ↦ List.mem_cons_of_mem id hi
    exact hf.advance fun _ ↦ .inl List.mem_cons_self
  ordered := by
    obtain ⟨⟨done, hahead, hdone⟩, -⟩ := h.frames
    rw [List.append_nil] at hahead
    exact ⟨fun s hs ↦ hdone s (hahead ▸ hs), h.ordered⟩

theorem skip (h : Invariant g next stop roots ⟨seen, entered, finished, path, id :: todo⟩)
    (hs : g.contains id → id ∈ entered ∧ (stop = true → id ∉ path.map Prod.fst)) :
    Invariant g next stop roots ⟨seen, entered, finished, path, todo⟩ where
  seen_iff := h.seen_iff
  entered_iff := h.entered_iff
  nodup := h.nodup
  live := h.live
  reached := h.reached
  frames := by
    refine h.frames.advance fun hl ↦ ?_
    obtain ⟨hentered, hopen⟩ := hs hl
    rcases (h.entered_iff id).1 hentered with hf | hp
    · exact .inl hf
    · refine .inr ⟨Bool.eq_false_iff.2 fun hb ↦ hopen hb hp, hentered, hp, fun frame hframe ↦ ?_⟩
      cases path with
      | nil => cases hframe
      | cons frame' path =>
          cases hframe
          exact h.frames.leads hp
  ordered := h.ordered

theorem enter {n : Node} (h : Invariant g next stop roots ⟨seen, entered, finished, path, id :: todo⟩)
    (hn : g.node? id = some n) (hid : seen.contains id = false) :
    Invariant g next stop roots
      ⟨seen.insert id (), id :: entered, finished, (id, todo) :: path, next n⟩ where
  seen_iff i := by
    rw [NodeMap.contains_eq, NodeMap.get?_insert, List.mem_cons, ← h.seen_iff]
    by_cases hi : id = i
    · simp [hi]
    · simp [hi, Ne.symm hi, NodeMap.contains_eq]
  entered_iff i := by
    have := h.entered_iff i
    simp only [List.map_cons, List.mem_cons] at this ⊢
    tauto
  nodup := by
    refine List.nodup_middle.2 (List.nodup_cons.2 ⟨fun hmem ↦ ?_, h.nodup⟩)
    have hseen := (h.seen_iff id).2 ((h.entered_iff id).2 (List.mem_append.1 hmem))
    rw [show seen.contains id = false from hid] at hseen
    cases hseen
  live i hi := by
    rcases List.mem_cons.1 hi with rfl | hi
    · exact contains_of_node? hn
    · exact h.live i hi
  reached i hi := by
    rcases List.mem_cons.1 hi with rfl | hi
    · rcases h.frames.leads_head with ⟨-, hroot⟩ | ⟨frame, outer, hpath, hl⟩
      · exact ⟨i, hroot, .refl⟩
      · have hopen : frame.1 ∈ path.map Prod.fst := by
          rw [show path = frame :: outer from hpath]
          exact List.mem_cons_self
        obtain ⟨r, hr, hreach⟩ := h.reached frame.1 ((h.entered_iff _).2 (.inr hopen))
        exact ⟨r, hr, hreach.tail hl⟩
    · exact h.reached i hi
  frames := by
    have hf := h.frames.mono (fun _ hi ↦ List.mem_cons_of_mem id hi) fun _ hi ↦ hi
    exact ⟨⟨[], by simp [ahead_of_node? hn], fun _ hs ↦ by cases hs⟩, hf⟩
  ordered := h.ordered.mono fun _ hi ↦ List.mem_cons_of_mem id hi

/-- A walk ends where nothing is open and nothing is left to look at, or where a cycle closes. -/
theorem explores_done {s : State} (h : Invariant g next stop roots s) {c : Option (List NodeId)}
    (hend : c = none → s.path = [] ∧ s.todo = [])
    (hcycle : ∀ nodes, c = some nodes →
      ∃ id rest, nodes = id :: rest ∧ id ∈ s.entered ∧ TransGen (g.Leads next) id id) :
    Explores g next stop roots (s.done c) where
  live i hi := h.live i (List.mem_reverse.1 hi)
  reached i hi := h.reached i (List.mem_reverse.1 hi)
  entered_of_finished i hi :=
    List.mem_reverse.2 ((h.entered_iff i).2 (.inl (List.mem_reverse.1 hi)))
  nodup := List.nodup_reverse.2 (List.nodup_append.1 h.nodup).1
  ordered := by
    simp only [State.done, List.reverse_reverse]
    exact h.ordered.mono fun _ hi ↦ List.mem_reverse.2 hi
  finished_of_entered hc i hi := by
    rcases (h.entered_iff i).1 (List.mem_reverse.1 hi) with hf | hp
    · exact List.mem_reverse.2 hf
    · rw [(hend hc).1] at hp
      cases hp
  finished_of_root hc r hr hl := by
    have hframes := h.frames
    rw [(hend hc).1, (hend hc).2] at hframes
    obtain ⟨done, hroots, hdone⟩ := hframes
    rw [List.append_nil] at hroots
    exact List.mem_reverse.2 (hdone r (hroots ▸ hr) hl)
  cycle nodes hc := by
    obtain ⟨id, rest, heq, hentered, hclosed⟩ := hcycle nodes hc
    exact ⟨id, rest, heq, List.mem_reverse.2 hentered, hclosed⟩

theorem explores_end (h : Invariant g next stop roots ⟨seen, entered, finished, [], []⟩) :
    Explores g next stop roots (State.done ⟨seen, entered, finished, [], []⟩ none) :=
  h.explores_done (fun _ ↦ ⟨rfl, rfl⟩) fun _ hc ↦ by cases hc

/-- A walk that is stopped has met an open node. -/
theorem explores_stop (h : Invariant g next stop roots ⟨seen, entered, finished, path, id :: todo⟩)
    (hopen : id ∈ path.map Prod.fst) (rest : List NodeId) :
    Explores g next stop roots
      (State.done ⟨seen, entered, finished, path, id :: todo⟩ (some (id :: rest))) := by
  refine h.explores_done (fun hc ↦ by cases hc) fun nodes hc ↦ ?_
  cases hc
  refine ⟨id, rest, rfl, (h.entered_iff id).2 (.inr hopen), ?_⟩
  rcases h.frames.leads_head with ⟨rfl, -⟩ | ⟨frame, outer, rfl, hl⟩
  · cases hopen
  · exact .tail' (h.frames.leads hopen) hl

end Invariant

/-! ## A whole walk -/

theorem explores_run {s : State} (h : Invariant g next stop roots s) :
    Explores g next stop roots (run g next stop s) := by
  fun_induction run g next stop s with
  | case1 => exact h.explores_end
  | case2 seen entered finished id rest path ih => exact ih h.finish
  | case3 seen entered finished path id todo hn ih =>
      exact ih (h.skip fun hl ↦ absurd hl (not_contains_of_node? hn))
  | case4 seen entered finished path id todo n hn hid ih => exact ih (h.enter hn hid)
  | case5 seen entered finished path id todo n hn hid hstop =>
      exact h.explores_stop hstop.2 _
  | case6 seen entered finished path id todo n hn hid hstop ih =>
      refine ih (h.skip fun _ ↦ ⟨(h.seen_iff id).1 (by simpa using hid), fun hb hp ↦ ?_⟩)
      exact hstop ⟨hb, hp⟩

end Walk

open Walk

theorem explores_walk (g : Graph) (next : Node → List NodeId) (stop : Bool)
    (roots : List NodeId) : Explores g next stop roots (g.walk next stop roots) :=
  explores_run (.start g next stop roots)

/-- Where no node that the roots lead to leads to itself, a walk meets no cycle. -/
theorem walk_cycle_eq_none {roots : List NodeId} (ha : ∀ r ∈ roots, ∀ id, g.contains id →
      ReflTransGen (g.Leads next) r id → ¬ TransGen (g.Leads next) id id) (stop : Bool) :
    (g.walk next stop roots).cycle = none := by
  have he := explores_walk g next stop roots
  refine Option.eq_none_iff_forall_ne_some.2 fun c hc ↦ ?_
  obtain ⟨id, -, -, hid, hcycle⟩ := he.cycle c hc
  obtain ⟨r, hr, hreach⟩ := he.reached id hid
  exact ha r hr id (he.live id hid) hreach hcycle

/-- A search for cycles that finds none has finished every node after all it leads to. -/
theorem finished_ordered {roots pre post : List NodeId} {id : NodeId}
    (h : (g.walk next true roots).finished = pre ++ id :: post) :
    ∀ s ∈ g.ahead next id, g.contains s → s ∈ pre := by
  intro s hs hl
  have ho := (explores_walk g next true roots).ordered
  rw [h, List.reverse_append, List.reverse_cons, List.append_assoc] at ho
  rcases ho.looked s hs hl with hs | ⟨hb, -⟩
  · exact List.mem_reverse.1 hs
  · cases hb

/-- A search for cycles that finds none has entered all that the entered nodes lead to. -/
theorem entered_closed {roots : List NodeId} (hc : (g.walk next true roots).cycle = none)
    {id s : NodeId} (hid : id ∈ (g.walk next true roots).entered) (hs : s ∈ g.ahead next id)
    (hl : g.contains s) : s ∈ (g.walk next true roots).entered := by
  have he := explores_walk g next true roots
  obtain ⟨pre, post, hsplit⟩ := List.append_of_mem (he.finished_of_entered hc id hid)
  refine he.entered_of_finished s ?_
  rw [hsplit]
  exact List.mem_append_left _ (finished_ordered hsplit s hs hl)

/-- A search for cycles from a live root that finds none has entered the root. -/
theorem root_mem_entered {roots : List NodeId} (hc : (g.walk next true roots).cycle = none)
    {r : NodeId} (hr : r ∈ roots) (hl : g.contains r) : r ∈ (g.walk next true roots).entered :=
  have he := explores_walk g next true roots
  he.entered_of_finished r (he.finished_of_root hc r hr hl)

/-! ## Cycles of edges -/

def Reads (g : Graph) (a b : NodeId) : Prop := b ∈ g.edges a

/-- A walk that follows edges only leads where the edges lead. -/
theorem reads_of_leads (hnext : ∀ n : Node, ∀ s ∈ next n, s ∈ n.edges) {a b : NodeId}
    (h : g.Leads next a b) : g.Reads a b := by
  cases hn : g.node? a with
  | none => simp [Leads, ahead, hn] at h
  | some n =>
      rw [Leads, ahead_of_node? hn] at h
      rw [Reads, edges_of_node? hn]
      exact hnext n b h

theorem reaches_of_leads (hnext : ∀ n : Node, ∀ s ∈ next n, s ∈ n.edges) {a b : NodeId}
    (h : ReflTransGen (g.Leads next) a b) : ReflTransGen g.Reads a b :=
  ReflTransGen.mono (fun _ _ ↦ reads_of_leads hnext) _ _ h

/-- What is reached from a set that leads nowhere else lies in the set. -/
theorem mem_of_reaches {r : NodeId → NodeId → Prop} {l : List NodeId} {a b : NodeId}
    (h : ReflTransGen r a b) (ha : a ∈ l) (hl : ∀ x ∈ l, ∀ y, r x y → y ∈ l) : b ∈ l := by
  induction h with
  | refl => exact ha
  | tail _ hr ih => exact hl _ ih _ hr

/-- No node reads itself, directly or through other nodes. -/
def Acyclic (g : Graph) : Prop := ∀ id, ¬ TransGen g.Reads id id

end FieldGraph.Graph
