import FieldGraph.Json.Record
import Mathlib.Data.List.Nodup

/-!
# Changing the members of a record

A field reads the members of its own name and no others.  So the order of members does not matter, nor
do those that no field reads; and a change to the member of one field changes what is read by a change
of that field, as long as the other fields are indifferent to it.
-/

namespace FieldGraph.Json

variable {α β : Type} {members before after : List (JsonText × Json)}

/-! ## Single fields -/

namespace RecordField

variable {f : RecordField α} {r : α → α} {a b : α} {v : Json}

theorem ofMembers?_of_perm {members' : List (JsonText × Json)} (h : members.Perm members')
    (f : RecordField α) (a : α) : f.ofMembers? members a = f.ofMembers? members' a := by
  have hfilter := h.filter fun m ↦ m.1 == some f.name
  rw [ofMembers?, ofMembers?]
  generalize members.filter _ = given at hfilter
  generalize members'.filter _ = given' at hfilter
  rcases given with _ | ⟨m, _ | ⟨m₂, rest⟩⟩
  · rw [List.nil_perm.1 hfilter]
  · rw [List.singleton_perm.1 hfilter]
  · have hlength := hfilter.length_eq
    rcases given' with _ | ⟨m', _ | ⟨m₂', rest'⟩⟩ <;> first | rfl | simp at hlength

/-- A field does not read a member of another name. -/
theorem ofMembers?_insert {name : JsonText} (h : name ≠ some f.name) (v : Json) (a : α) :
    f.ofMembers? (before ++ (name, v) :: after) a = f.ofMembers? (before ++ after) a := by
  rw [ofMembers?, ofMembers?, List.filter_append, List.filter_append,
    List.filter_cons_of_neg (by simpa using h)]

/-- A member that gives a field is the only one that does. -/
theorem only_of_ofMembers? (h : f.ofMembers? (before ++ (some f.name, v) :: after) a = some b) :
    f.update? v a = some b ∧ (∀ a, f.ofMembers? (before ++ after) a = some a) ∧
      ∀ v a, f.ofMembers? (before ++ (some f.name, v) :: after) a = f.update? v a := by
  have hfilter (v : Json) : (before ++ (some f.name, v) :: after).filter (·.1 == some f.name) =
      before.filter (·.1 == some f.name) ++ (some f.name, v) :: after.filter (·.1 == some f.name) := by
    rw [List.filter_append, List.filter_cons_of_pos (by simp)]
  have hnone : before.filter (·.1 == some f.name) = [] ∧ after.filter (·.1 == some f.name) = [] := by
    rw [ofMembers?, hfilter] at h
    generalize before.filter _ = given at h
    generalize after.filter _ = given' at h
    rcases given with _ | ⟨m, _ | ⟨m₂, rest⟩⟩ <;> rcases given' with _ | ⟨m', rest'⟩ <;>
      first | exact ⟨rfl, rfl⟩ | cases h
  have hread (v : Json) (a : α) :
      f.ofMembers? (before ++ (some f.name, v) :: after) a = f.update? v a := by
    rw [ofMembers?, hfilter, hnone.1, hnone.2]
    rfl
  refine ⟨hread v a ▸ h, fun a ↦ ?_, hread⟩
  rw [ofMembers?, List.filter_append, hnone.1, hnone.2]
  rfl

/-- A field is indifferent to a change of the record: it is read to the same, before or after. -/
def Spares (f : RecordField α) (r : α → α) : Prop := ∀ v a, f.update? v (r a) = (f.update? v a).map r

/-- A change of a record undoes what is read of a field, and changes nothing in the default. -/
structure Restores (f : RecordField α) (default : α) (r : α → α) : Prop where
  default : r default = default
  update {v : Json} {a b : α} (h : f.update? v a = some b) : r b = r a

section Of

variable {name : String} {c : Codec β} {get : α → β} {set : β → α → α}

theorem spares_of (h : ∀ x a, set x (r a) = r (set x a)) : (of name c get set).Spares r := by
  intro v a
  simp only [of, Option.map_map]
  exact congrArg (Option.map · _) (funext fun x ↦ h x a)

theorem restores_of {default : α} (hdefault : r default = default) (h : ∀ x a, r (set x a) = r a) :
    (of name c get set).Restores default r where
  default := hdefault
  update hupdate := by
    obtain ⟨x, -, rfl⟩ := Option.map_eq_some_iff.1 hupdate
    exact h x _

end Of

theorem Spares.ofMembers? (h : f.Spares r) (members : List (JsonText × Json)) (a : α) :
    f.ofMembers? members (r a) = (f.ofMembers? members a).map r := by
  rw [RecordField.ofMembers?, RecordField.ofMembers?]
  split
  · rfl
  · exact h _ _
  · rfl

end RecordField

/-! ## All fields -/

/-- All fields but the one of a name are indifferent to a change of the record. -/
def SparesBut (fields : List (RecordField α)) (name : String) (r : α → α) : Prop :=
  ∀ f ∈ fields, f.name ≠ name → f.Spares r

namespace SparesBut

variable {fields : List (RecordField α)} {name name' : String} {r : α → α} {c : Codec β}
  {get : α → β} {set : β → α → α}

theorem nil : SparesBut [] name r := List.forall_mem_nil _

theorem own (h : SparesBut fields name r) : SparesBut (.of name c get set :: fields) name r :=
  List.forall_mem_cons.2 ⟨fun hne ↦ absurd rfl hne, h⟩

theorem other (hset : ∀ x a, set x (r a) = r (set x a)) (h : SparesBut fields name r) :
    SparesBut (.of name' c get set :: fields) name r :=
  List.forall_mem_cons.2 ⟨fun _ ↦ RecordField.spares_of hset, h⟩

end SparesBut

section Fields

variable {fields : List (RecordField α)} {f : RecordField α} {r : α → α} {default a result : α}
  {v v' : Json} {name : String}

/-- What is read from members, field by field, is read from others up to a change. -/
theorem foldlM_ofMembers?_map {members' : List (JsonText × Json)}
    (h : ∀ f ∈ fields, ∀ a, f.ofMembers? members' (r a) = (f.ofMembers? members a).map r) (a : α) :
    fields.foldlM (fun a (f : RecordField α) ↦ f.ofMembers? members' a) (r a) =
      (fields.foldlM (fun a (f : RecordField α) ↦ f.ofMembers? members a) a).map r := by
  induction fields generalizing a with
  | nil => rfl
  | cons f fields ih =>
    obtain ⟨hf, hfields⟩ := List.forall_mem_cons.1 h
    rw [List.foldlM_cons, List.foldlM_cons, hf]
    cases f.ofMembers? members a with
    | none => rfl
    | some b => exact ih hfields b

theorem foldlM_ofMembers?_congr {members' : List (JsonText × Json)}
    (h : ∀ f ∈ fields, ∀ a, f.ofMembers? members' a = f.ofMembers? members a) (a : α) :
    fields.foldlM (fun a (f : RecordField α) ↦ f.ofMembers? members' a) a =
      fields.foldlM (fun a (f : RecordField α) ↦ f.ofMembers? members a) a := by
  refine (foldlM_ofMembers?_map (r := id) (fun f hf a ↦ ?_) a).trans Option.map_id_apply
  rw [Option.map_id_apply]
  exact h f hf a

theorem readMembers?_of_perm {members' : List (JsonText × Json)} (h : members.Perm members') :
    readMembers? fields members a = readMembers? fields members' a := by
  have hread (f : RecordField α) (a : α) : f.ofMembers? members a = f.ofMembers? members' a :=
    f.ofMembers?_of_perm h a
  simp only [readMembers?, h.all_eq, hread]

/-- A member with a name that no field has is skipped. -/
theorem readMembers?_insert (h : ∀ f ∈ fields, f.name ≠ name) :
    readMembers? fields (before ++ (some name, v) :: after) a =
      readMembers? fields (before ++ after) a := by
  rw [readMembers?, readMembers?, foldlM_ofMembers?_congr fun f hf a ↦
    RecordField.ofMembers?_insert (by simpa using (h f hf).symm) v a]
  exact if_congr (by simp) rfl rfl

section Change

variable (hnames : (fields.map (·.name)).Nodup) (hf : f ∈ fields)
  (hspares : SparesBut fields f.name r)
include hnames hf hspares

/-- A record before and after its field is read: members that differ for this field only are read to the
changed result if the field is read from them to the changed record. -/
theorem exists_read_of_readMembers?
    (h : readMembers? fields (before ++ (some f.name, v) :: after) default = some result) :
    (before ++ after).all (·.1.isSome) = true ∧
      ∃ a b, f.ofMembers? (before ++ (some f.name, v) :: after) a = some b ∧
        (r default = default → r a = a) ∧
        ∀ members : List (JsonText × Json), members.all (·.1.isSome) = true →
          (∀ g : RecordField α, g.name ≠ f.name → ∀ a,
            g.ofMembers? members a = g.ofMembers? (before ++ (some f.name, v) :: after) a) →
          f.ofMembers? members a = some (r b) →
            readMembers? fields members default = some (r result) := by
  obtain ⟨pre, post, rfl⟩ := List.append_of_mem hf
  have hothers : ∀ g ∈ pre ++ post, g.name ≠ f.name := by
    rw [List.map_append, List.map_cons, List.nodup_middle, List.nodup_cons, ← List.map_append] at hnames
    exact fun g hg heq ↦ hnames.1 (List.mem_map.2 ⟨g, hg, heq⟩)
  have hpre (g) (hg : g ∈ pre) : g.name ≠ f.name ∧ g.Spares r :=
    have hne := hothers g (List.mem_append_left _ hg)
    ⟨hne, hspares g (List.mem_append_left _ hg) hne⟩
  have hpost (g) (hg : g ∈ post) : g.name ≠ f.name ∧ g.Spares r :=
    have hne := hothers g (List.mem_append_right _ hg)
    ⟨hne, hspares g (List.mem_append_right _ (List.mem_cons_of_mem _ hg)) hne⟩
  simp only [readMembers?, List.foldlM_append, List.foldlM_cons, Option.bind_eq_bind] at h ⊢
  split at h
  next hall =>
    obtain ⟨a, ha, h⟩ := Option.bind_eq_some_iff.1 h
    obtain ⟨b, hb, h⟩ := Option.bind_eq_some_iff.1 h
    refine ⟨by simpa using hall, a, b, hb, fun hdefault ↦ ?_, fun members hall hsame hread ↦ ?_⟩
    · have hmap := foldlM_ofMembers?_map (fun g hg a ↦
        (hpre g hg).2.ofMembers? (before ++ (some f.name, v) :: after) a) default
      rw [hdefault, ha] at hmap
      exact (Option.some.inj hmap).symm
    · rw [if_pos hall, foldlM_ofMembers?_congr fun g hg ↦ hsame g (hpre g hg).1, ha,
        Option.bind_some, hread, Option.bind_some, foldlM_ofMembers?_map fun g hg a ↦ ?_, h]
      · rfl
      · rw [hsame g (hpost g hg).1, (hpost g hg).2.ofMembers?]
  next => cases h

/-- Without its member, a field keeps its default. -/
theorem readMembers?_delete (hrestores : f.Restores default r)
    (h : readMembers? fields (before ++ (some f.name, v) :: after) default = some result) :
    readMembers? fields (before ++ after) default = some (r result) := by
  obtain ⟨hall, a, b, hread, hkeeps, hchange⟩ := exists_read_of_readMembers? hnames hf hspares h
  obtain ⟨hupdate, hnone, -⟩ := RecordField.only_of_ofMembers? hread
  refine hchange _ hall (fun g hg a ↦ ?_) ?_
  · exact (RecordField.ofMembers?_insert (by simpa using hg.symm) v a).symm
  · rw [hnone, hrestores.update hupdate, hkeeps hrestores.default]

/-- A member that is read to the changed field is read to the changed record. -/
theorem readMembers?_replace (hupdate : ∀ a b, f.update? v a = some b → f.update? v' a = some (r b))
    (h : readMembers? fields (before ++ (some f.name, v) :: after) default = some result) :
    readMembers? fields (before ++ (some f.name, v') :: after) default = some (r result) := by
  obtain ⟨hall, a, b, hread, -, hchange⟩ := exists_read_of_readMembers? hnames hf hspares h
  obtain ⟨hb, -, honly⟩ := RecordField.only_of_ofMembers? hread
  refine hchange _ (by simpa using hall) (fun g hg a ↦ ?_) ?_
  · have hname : some f.name ≠ some g.name := by simpa using hg.symm
    rw [RecordField.ofMembers?_insert hname, RecordField.ofMembers?_insert hname]
  · rw [honly, hupdate a b hb]

end Change

/-- A change within the member of a field changes the field of what is read. -/
theorem decode?_replace {c : Codec β} {get : α → β} {set : β → α → α} {g : β → β}
    (hnames : (fields.map (·.name)).Nodup) (hf : RecordField.of name c get set ∈ fields)
    (hset : ∀ x a, set (g x) a = r (set x a)) (hspares : SparesBut fields name r)
    (hv : ∀ x, c.decode? v = some x → c.decode? v' = some (g x))
    (h : (record default fields).decode? (object (before ++ (some name, v) :: after)) = some result) :
    (record default fields).decode? (object (before ++ (some name, v') :: after)) =
      some (r result) := by
  refine readMembers?_replace hnames hf hspares (fun a b hupdate ↦ ?_) h
  obtain ⟨x, hx, rfl⟩ := Option.map_eq_some_iff.1 hupdate
  exact Option.map_eq_some_iff.2 ⟨g x, hv x hx, hset x a⟩

end Fields

theorem decode?_pair_eq_some_iff {c : Codec α} {v v' : Json} {x : α × α} :
    (pair c).decode? (.array [v, v']) = some x ↔
      ∃ a, c.decode? v = some a ∧ ∃ b, c.decode? v' = some b ∧ (a, b) = x := by
  simp [pair, Option.bind_eq_some_iff]

/-! ## Fallbacks -/

/-- A codec reads records, and a table says of each known member what the record is without it: its
own field is restored, and the others are spared. -/
structure Codec.FallsBack (c : Codec α) (default : α) (fields : List (RecordField α))
    (fallbacks : List (String × (α → α))) : Prop where
  eq_record : c = record default fields
  names : fields.map (·.name) = fallbacks.map Prod.fst
  nodup : (fields.map (·.name)).Nodup
  change : List.Forall₂ (fun f p ↦ f.name = p.1 ∧ f.Restores default p.2 ∧ SparesBut fields p.1 p.2)
    fields fallbacks

namespace Codec.FallsBack

variable {c : Codec α} {default a : α} {fields : List (RecordField α)}
  {fallbacks : List (String × (α → α))} {name : String} {reset : α → α} {v : Json}
  (h : c.FallsBack default fields fallbacks)
include h

theorem exists_field (hreset : (name, reset) ∈ fallbacks) :
    ∃ f ∈ fields, f.name = name ∧ f.Restores default reset ∧ SparesBut fields name reset := by
  obtain ⟨i, hi, heq⟩ := List.getElem_of_mem hreset
  have hi' : i < fields.length := h.change.length_eq ▸ hi
  have hchange := h.change.get hi' hi
  rw [List.get_eq_getElem, List.get_eq_getElem, heq] at hchange
  exact ⟨_, List.getElem_mem hi', hchange⟩

/-- Without one of its members, an object is accepted as the record that has fallen back. -/
theorem decode?_delete (hreset : (name, reset) ∈ fallbacks)
    (ha : c.decode? (object (before ++ (some name, v) :: after)) = some a) :
    c.decode? (object (before ++ after)) = some (reset a) := by
  obtain ⟨f, hf, rfl, hrestores, hspares⟩ := h.exists_field hreset
  rw [h.eq_record] at ha ⊢
  exact readMembers?_delete h.nodup hf hspares hrestores ha

theorem decode?_of_perm {members' : List (JsonText × Json)} (hperm : members.Perm members') :
    c.decode? (object members) = c.decode? (object members') := by
  rw [h.eq_record]
  exact readMembers?_of_perm hperm

theorem decode?_insert (hname : name ∉ fallbacks.map Prod.fst) :
    c.decode? (object (before ++ (some name, v) :: after)) = c.decode? (object (before ++ after)) := by
  rw [h.eq_record]
  rw [← h.names] at hname
  exact readMembers?_insert fun f hf heq ↦ hname (List.mem_map.2 ⟨f, hf, heq⟩)

end Codec.FallsBack

end FieldGraph.Json
