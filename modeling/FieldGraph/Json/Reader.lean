import FieldGraph.Json.Token

/-!
# Reading

A text is read one token at a time.  The state holds the arrays and objects that are still open, so
that nesting costs no recursion and has no limit.
-/

namespace FieldGraph.Json

/-- An array or object that is still open, with what it holds so far, last item first. -/
inductive Frame where
  | array (items : List Json)
  | object (members : List (JsonText × Json)) (name : JsonText)

/-- What may follow, inside the open frames. -/
inductive State where
  | value (frames : List Frame)
  | valueOrClose (frames : List Frame)
  | nameOrClose (frames : List Frame)
  | name (frames : List Frame) (members : List (JsonText × Json))
  | colon (frames : List Frame) (members : List (JsonText × Json)) (name : JsonText)
  | next (frames : List Frame) (frame : Frame)
  | done (v : Json)

/-- Hand a complete value to the innermost frame. -/
def complete (v : Json) : List Frame → State
  | [] => .done v
  | .array items :: frames => .next frames (.array (v :: items))
  | .object members name :: frames => .next frames (.object ((name, v) :: members) name)

/-- A token where a value is expected. -/
def startValue (frames : List Frame) : Token → Option State
  | .null => some (complete null frames)
  | .bool b => some (complete (bool b) frames)
  | .number n => some (complete (number n) frames)
  | .string s => some (complete (string s) frames)
  | .openArray => some (.valueOrClose frames)
  | .openObject => some (.nameOrClose frames)
  | _ => none

def step : State → Token → Option State
  | .value frames, t => startValue frames t
  | .valueOrClose frames, .closeArray => some (complete (array []) frames)
  | .valueOrClose frames, t => startValue (.array [] :: frames) t
  | .nameOrClose frames, .closeObject => some (complete (object []) frames)
  | .nameOrClose frames, .string s => some (.colon frames [] s)
  | .name frames members, .string s => some (.colon frames members s)
  | .colon frames members s, .colon => some (.value (.object members s :: frames))
  | .next frames (.array items), .comma => some (.value (.array items :: frames))
  | .next frames (.array items), .closeArray => some (complete (array items.reverse) frames)
  | .next frames (.object members _), .comma => some (.name frames members)
  | .next frames (.object members _), .closeObject =>
    some (complete (object members.reverse) frames)
  | _, _ => none

/-- The value a list of tokens spells. -/
def ofTokens? (ts : List Token) : Option Json :=
  match ts.foldlM step (.value []) with
  | some (.done v) => some v
  | _ => none

/-- Read a text that holds one value and nothing else but blanks. -/
def parse? (text : String) : Option Json := (tokens? text.toList).bind ofTokens?

end FieldGraph.Json
