import FieldGraph.Json.Codec

/-!
# Records

A record is written as an object with a member for each field.  It is read from an object whose
members may stand in any order, or from an array of the fields in their own order.  A field that is
not given keeps its default and unknown members are skipped, but a field given twice is refused.
-/

namespace FieldGraph.Json

/-- A named field of a record. -/
structure RecordField (α : Type) where
  name : String
  /-- The written form of the field. -/
  encode : α → Json
  /-- Replace the field by what is read. -/
  update? : Json → α → Option α

namespace RecordField

variable {α β : Type}

/-- A field of its own written form. -/
def of (name : String) (c : Codec β) (get : α → β) (set : β → α → α) : RecordField α where
  name
  encode a := c.encode (get a)
  update? v a := (c.decode? v).map (set · a)

/-- Take the field from the members of an object, which give it at most once. -/
def ofMembers? (f : RecordField α) (members : List (JsonText × Json)) (a : α) : Option α :=
  match members.filter (·.1 == some f.name) with
  | [] => some a
  | [m] => f.update? m.2 a
  | _ => none

end RecordField

variable {α : Type}

/-- Read fields from an object.  Every member's name is read, even that of an unknown one. -/
def readMembers? (fields : List (RecordField α)) (members : List (JsonText × Json)) (a : α) :
    Option α :=
  if members.all (·.1.isSome) then fields.foldlM (fun a f => f.ofMembers? members a) a else none

/-- Read the first fields from the items of an array, of which none may be left over. -/
def readItems? : List (RecordField α) → List Json → α → Option α
  | _, [], a => some a
  | f :: fields, v :: items, a => (f.update? v a).bind (readItems? fields items)
  | [], _ :: _, _ => none

/-- The written form of a record. -/
def record (default : α) (fields : List (RecordField α)) : Codec α where
  encode a := ofMembers (fields.map fun f => (f.name, f.encode a))
  decode?
    | object members => readMembers? fields members default
    | array items => readItems? fields items default
    | _ => none

end FieldGraph.Json
