import TileAtlas.Json.Basic
/-!
# JSON for readers

Every item and every field stands on a line of its own, two blanks further in than what it belongs
to.  Empty arrays and objects stay on one line.
-/
namespace TileAtlas.Json

def indent (depth : Nat) : String := String.ofList (List.replicate (2 * depth) ' ')

/-- Parts between two brackets, a line each. -/
def spread (depth : Nat) (opening closing : String) (parts : List String) : String :=
  if parts.isEmpty then opening ++ closing
  else
    opening ++ "\n" ++ String.intercalate ",\n" (parts.map (indent (depth + 1) ++ ·)) ++ "\n"
      ++ indent depth ++ closing

mutual

/-- The document, some levels in. -/
def prettyAt (depth : Nat) : Json → String
  | .arr items => spread depth "[" "]" (prettyItems (depth + 1) items)
  | .obj fields => spread depth "\x7b" "\x7d" (prettyFields (depth + 1) fields)
  | j => j.compact

def prettyItems (depth : Nat) : List Json → List String
  | [] => []
  | j :: js => prettyAt depth j :: prettyItems depth js

def prettyFields (depth : Nat) : List (Option String × Json) → List String
  | [] => []
  | (k, j) :: fs => (quoted (k.getD "") ++ ": " ++ prettyAt depth j) :: prettyFields depth fs

end

def pretty (j : Json) : String := prettyAt 0 j

end TileAtlas.Json
