import FieldGraph.Json.Record
import FieldGraph.Proofs.Json.Reading
import FieldGraph.Proofs.Json.Scalars

/-!
# What codecs keep

A codec keeps a value if its written form is printable and is read as this value.  All values are kept
but scalars that are not finite, which have no written form, and what holds such scalars.
-/

namespace FieldGraph.Json

variable {α β : Type}

/-- The codec writes a value as something printable, and reads it as the value. -/
structure Codec.Keeps (c : Codec α) (a : α) : Prop where
  printable : Printable (c.encode a)
  decode?_encode : c.decode? (c.encode a) = some a

/-- The text of a value that is kept is read as the value. -/
theorem Codec.Keeps.read?_write {c : Codec α} {a : α} (h : c.Keeps a) :
    c.read? (c.write a) = some a := by
  rw [read?, write, parse?_pretty h.printable, Option.bind_some, h.decode?_encode]

/-! ## Single values -/

theorem keeps_truth (b : Bool) : truth.Keeps b := ⟨.bool b, rfl⟩

theorem natBelow?_ofNat {n bound : ℕ} (h : n < bound) :
    natBelow? bound (number (.ofNat n)) = some n := by
  have hvalue : NumberLiteral.digitsValue (NumberLiteral.ofNat n).whole = n :=
    NumberLiteral.digitsValue_natDigits n
  rw [natBelow?, hvalue]
  exact if_pos (by simpa [NumberLiteral.ofNat, NumberLiteral.isInteger] using h)

theorem keeps_uint32 (n : UInt32) : uint32.Keeps n where
  printable := .number (NumberLiteral.wellFormed_ofNat _)
  decode?_encode := by
    simp only [uint32, natBelow?_ofNat n.toNat_lt, Option.map_some, UInt32.ofNat_toNat]

theorem keeps_uint64 (n : UInt64) : uint64.Keeps n where
  printable := .number (NumberLiteral.wellFormed_ofNat _)
  decode?_encode := by
    simp only [uint64, natBelow?_ofNat n.toNat_lt, Option.map_some, UInt64.ofNat_toNat]

theorem keeps_scalar {x : Scalar} (hx : x.isFinite = true) : scalar.Keeps x where
  printable := by
    simp only [scalar, if_pos hx]
    exact .number (wellFormed_scalarLiteral hx)
  decode?_encode := by
    simp only [scalar, if_pos hx, scalarOf?_scalarLiteral hx]

theorem keeps_pair {c : Codec α} {a b : α} (ha : c.Keeps a) (hb : c.Keeps b) :
    (pair c).Keeps (a, b) where
  printable := .array (by simp [ha.printable, hb.printable])
  decode?_encode := by simp [pair, ha.decode?_encode, hb.decode?_encode]

theorem keeps_triple {c : Codec α} {x y z : α} (hx : c.Keeps x) (hy : c.Keeps y) (hz : c.Keeps z) :
    (triple c).Keeps (x, y, z) where
  printable := .array (by simp [hx.printable, hy.printable, hz.printable])
  decode?_encode := by simp [triple, hx.decode?_encode, hy.decode?_encode, hz.decode?_encode]

/-! ## Records -/

/-- Carrying fields over from a record `a`, one by one, changes one record to another. -/
inductive Carries (a : α) : List (RecordField α) → α → α → Prop
  | nil (b : α) : Carries a [] b b
  | cons {f : RecordField α} {fields : List (RecordField α)} {b b' b'' : α}
    (hprintable : Printable (f.encode a)) (hupdate : f.update? (f.encode a) b = some b')
    (h : Carries a fields b' b'') : Carries a (f :: fields) b b''

namespace Carries

variable {a b b' : α} {fields : List (RecordField α)}

/-- A field is carried over if its own value is kept. -/
theorem field {c : Codec β} {name : String} {get : α → β} {set : β → α → α}
    (hfield : c.Keeps (get a)) (h : Carries a fields (set (get a) b) b') :
    Carries a (.of name c get set :: fields) b b' :=
  .cons hfield.printable (by simp [RecordField.of, hfield.decode?_encode]) h

variable (h : Carries a fields b b')
include h

theorem printable : ∀ f ∈ fields, Printable (f.encode a) := by
  induction h with
  | nil => exact fun f hf ↦ nomatch hf
  | cons hprintable _ _ ih => exact List.forall_mem_cons.2 ⟨hprintable, ih⟩

/-- Members that give each field its own value carry the fields over. -/
theorem foldlM_eq {members : List (JsonText × Json)}
    (hmembers : ∀ f ∈ fields, ∀ b, f.ofMembers? members b = f.update? (f.encode a) b) :
    fields.foldlM (fun b f => f.ofMembers? members b) b = some b' := by
  induction h with
  | nil => rfl
  | cons _ hupdate _ ih =>
    rw [List.forall_mem_cons] at hmembers
    rw [List.foldlM_cons, hmembers.1, hupdate]
    exact ih hmembers.2

end Carries

section Record

variable {fields : List (RecordField α)} (hnames : (fields.map (·.name)).Nodup)
include hnames

/-- Fields of different names are told apart. -/
theorem ofMembers?_map {f : RecordField α} (hf : f ∈ fields) (a b : α) :
    f.ofMembers? (fields.map fun g => (some g.name, g.encode a)) b = f.update? (f.encode a) b := by
  have hfilter : (fields.map fun g => (some g.name, g.encode a)).filter (·.1 == some f.name) =
      [(some f.name, f.encode a)] := by
    induction fields with
    | nil => exact nomatch hf
    | cons g fields ih =>
      obtain ⟨hg, hnames⟩ := List.nodup_cons.1 hnames
      rw [List.map_cons, List.filter_cons]
      rcases List.mem_cons.1 hf with rfl | hf
      · rw [if_pos (beq_self_eq_true _), List.filter_eq_nil_iff.2]
        intro m hm heq
        obtain ⟨k, hk, rfl⟩ := List.mem_map.1 hm
        exact hg (List.mem_map.2 ⟨k, hk, Option.some.inj (eq_of_beq heq)⟩)
      · rw [if_neg, ih hnames hf]
        intro heq
        exact hg (List.mem_map.2 ⟨f, hf, (Option.some.inj (eq_of_beq heq)).symm⟩)
  rw [RecordField.ofMembers?, hfilter]

/-- A record is kept if carrying its fields over to the default makes up the record. -/
theorem keeps_record {default a : α} (h : Carries a fields default a) :
    (record default fields).Keeps a where
  printable := by
    refine .object fun m hm ↦ ?_
    obtain ⟨f, hf, rfl⟩ := List.mem_map.1 hm
    exact h.printable f hf
  decode?_encode := by
    simp only [record, ofMembers, List.map_map, readMembers?]
    rw [if_pos (by simp)]
    exact h.foldlM_eq fun f hf b ↦ ofMembers?_map hnames hf a b

end Record

end FieldGraph.Json
