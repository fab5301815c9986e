import FieldGraph.Json.Basic

/-!
# Printing

Every item and member stands on a line of its own, two blanks deeper than its bracket; empty
brackets stay closed.
-/

namespace FieldGraph.Json

/-- A line break and the blanks of a depth. -/
def newline (depth : Nat) : List Char := '\n' :: List.replicate (2 * depth) ' '

def hexChar (n : Nat) : Char := Nat.digitChar (n % 16)

/-- A character between quotes: quotes, backslashes and control characters are escaped. -/
def escape (c : Char) : List Char :=
  match c with
  | '"' => ['\\', '"']
  | '\\' => ['\\', '\\']
  | '\x08' => ['\\', 'b']
  | '\x0c' => ['\\', 'f']
  | '\n' => ['\\', 'n']
  | '\r' => ['\\', 'r']
  | '\t' => ['\\', 't']
  | c =>
    if c.toNat < 32 then ['\\', 'u', '0', '0', hexChar (c.toNat / 16), hexChar c.toNat] else [c]

def quoted (s : String) : List Char := '"' :: s.toList.flatMap escape ++ ['"']

mutual

/-- The text of a value that starts at a depth. -/
def chars (depth : Nat) : Json → List Char
  | null => "null".toList
  | bool b => (if b then "true" else "false").toList
  | number n => n.chars
  | string s => quoted (s.getD "")
  | array [] => ['[', ']']
  | array (v :: items) =>
    '[' :: newline (depth + 1) ++ chars (depth + 1) v ++ itemChars (depth + 1) items ++
      newline depth ++ [']']
  | object [] => ['{', '}']
  | object ((name, v) :: members) =>
    '{' :: newline (depth + 1) ++ quoted (name.getD "") ++ ": ".toList ++ chars (depth + 1) v ++
      memberChars (depth + 1) members ++ newline depth ++ ['}']

/-- The items after the first. -/
def itemChars (depth : Nat) : List Json → List Char
  | [] => []
  | v :: items => ',' :: newline depth ++ chars depth v ++ itemChars depth items

/-- The members after the first. -/
def memberChars (depth : Nat) : List (JsonText × Json) → List Char
  | [] => []
  | (name, v) :: members =>
    ',' :: newline depth ++ quoted (name.getD "") ++ ": ".toList ++ chars depth v ++
      memberChars depth members

end

/-- The text of a value. -/
def pretty (v : Json) : String := String.ofList (chars 0 v)

end FieldGraph.Json
