/-!
# Node identifiers and tables

A node is named by its position in the arena, and positions are never reused.  A table holds at
most one entry for each node.
-/

namespace FieldGraph

/-- The name of a node: its position in the arena. -/
structure NodeId where
  index : Nat
deriving DecidableEq, Repr

namespace NodeId

def text (id : NodeId) : String := "#" ++ toString id.index

end NodeId

/-- A table indexed by nodes. -/
structure NodeMap (α : Type) where
  slots : Array (Option α)

namespace NodeMap

variable {α : Type}

def empty : NodeMap α := ⟨#[]⟩

instance : Inhabited (NodeMap α) := ⟨empty⟩

/-- The number of positions, those without an entry included. -/
def capacity (m : NodeMap α) : Nat := m.slots.size

def get? (m : NodeMap α) (id : NodeId) : Option α := (m.slots[id.index]?).join

def contains (m : NodeMap α) (id : NodeId) : Bool := (m.get? id).isSome

/-- Change the entry of a node, if it has one. -/
def modify (m : NodeMap α) (id : NodeId) (f : α → α) : NodeMap α :=
  ⟨m.slots.modify id.index (·.map f)⟩

def erase (m : NodeMap α) (id : NodeId) : NodeMap α := ⟨m.slots.setIfInBounds id.index none⟩

/-- Enter a value at the next free position. -/
def push (m : NodeMap α) (a : α) : NodeMap α := ⟨m.slots.push (some a)⟩

/-- Enter a value for a node, making room for its position. -/
def insert (m : NodeMap α) (id : NodeId) (a : α) : NodeMap α :=
  let slots := m.slots ++ Array.replicate (id.index + 1 - m.slots.size) none
  ⟨slots.setIfInBounds id.index (some a)⟩

/-- The nodes that have an entry, in order of position. -/
def ids (m : NodeMap α) : List NodeId :=
  ((List.range m.capacity).map NodeId.mk).filter m.contains

/-- The entries, in order of position. -/
def values (m : NodeMap α) : List α := m.slots.toList.filterMap id

@[simp] theorem get?_empty (id : NodeId) : (empty : NodeMap α).get? id = none := rfl

@[simp] theorem get?_modify (m : NodeMap α) (i j : NodeId) (f : α → α) :
    (m.modify i f).get? j = if i = j then (m.get? j).map f else m.get? j := by
  by_cases h : i = j
  · subst h
    simp only [modify, get?, Array.getElem?_modify, if_true]
    cases m.slots[i.index]? <;> rfl
  · have h' : i.index ≠ j.index := fun e => h (congrArg NodeId.mk e)
    simp [modify, get?, Array.getElem?_modify, h, h']

@[simp] theorem get?_erase (m : NodeMap α) (i j : NodeId) :
    (m.erase i).get? j = if i = j then none else m.get? j := by
  by_cases h : i = j
  · subst h
    simp only [erase, get?, Array.getElem?_setIfInBounds, if_true]
    split <;> rfl
  · have h' : i.index ≠ j.index := fun e => h (congrArg NodeId.mk e)
    simp [erase, get?, h, h']

@[simp] theorem get?_push (m : NodeMap α) (a : α) (j : NodeId) :
    (m.push a).get? j = if j.index = m.capacity then some a else m.get? j := by
  simp only [push, get?, capacity, Array.getElem?_push]
  split <;> simp_all

@[simp] theorem get?_insert (m : NodeMap α) (i j : NodeId) (a : α) :
    (m.insert i a).get? j = if i = j then some a else m.get? j := by
  by_cases h : i = j
  · subst h
    simp only [insert, get?, Array.getElem?_setIfInBounds, if_true, Array.size_append,
      Array.size_replicate]
    rw [if_pos (by omega)]
    rfl
  · have h' : i.index ≠ j.index := fun e => h (congrArg NodeId.mk e)
    simp only [insert, get?, Array.getElem?_setIfInBounds, h, h', if_false, Array.getElem?_append,
      Array.getElem?_replicate]
    by_cases hj : j.index < m.slots.size
    · rw [if_pos hj]
    · rw [if_neg hj, Array.getElem?_eq_none (by omega)]
      split <;> rfl

theorem contains_eq (m : NodeMap α) (id : NodeId) : m.contains id = (m.get? id).isSome := rfl

/-- A node with an entry lies within the capacity. -/
theorem index_lt_of_get? {m : NodeMap α} {id : NodeId} {a : α} (h : m.get? id = some a) :
    id.index < m.capacity := by
  by_cases hlt : id.index < m.slots.size
  · exact hlt
  · simp [get?, Array.getElem?_eq_none (Nat.le_of_not_lt hlt)] at h

theorem mem_ids {m : NodeMap α} {id : NodeId} : id ∈ m.ids ↔ m.contains id := by
  simp only [ids, List.mem_filter, List.mem_map, List.mem_range, and_iff_right_iff_imp]
  intro h
  obtain ⟨a, ha⟩ := Option.isSome_iff_exists.1 h
  exact ⟨id.index, index_lt_of_get? ha, rfl⟩

theorem nodup_ids (m : NodeMap α) : m.ids.Nodup := by
  apply List.Pairwise.filter
  rw [List.pairwise_map]
  exact List.nodup_range.imp fun h e => h (congrArg NodeId.index e)

end NodeMap

/-- A set of nodes. -/
abbrev NodeSet := NodeMap Unit

end FieldGraph
