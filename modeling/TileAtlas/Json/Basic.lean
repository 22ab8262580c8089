import TileAtlas.Json.Number
/-!
# JSON documents

A document as it is written: the fields of an object in their order, repeated names and all, and
numbers as digits.  A text is absent when an escape in it stands for half a character; such a
document is well formed as long as nobody asks for that text.
-/
namespace TileAtlas

inductive Json where
  | null
  | bool (b : Bool)
  | num (n : Json.Number)
  | str (s : Option String)
  | arr (items : List Json)
  | obj (fields : List (Option String × Json))

namespace Json

def ofNat (n : Nat) : Json := .num ⟨false, (Nat.toDigits 10 n).map (fun c => c.toNat - 48), none, none⟩

def ofInt (n : Int) : Json :=
  .num ⟨n < 0, (Nat.toDigits 10 n.natAbs).map (fun c => c.toNat - 48), none, none⟩

def text (s : String) : Json := .str (some s)

def object (fields : List (String × Json)) : Json := .obj (fields.map fun f => (some f.1, f.2))

def ofOption (f : α → Json) : Option α → Json
  | none => .null
  | some a => f a

def ofList (f : α → Json) (as : List α) : Json := .arr (as.map f)

/-! ## What a document holds -/

mutual

/-- How many arrays and objects are nested at most. -/
def depth : Json → Nat
  | .arr items => depthOfItems items + 1
  | .obj fields => depthOfFields fields + 1
  | _ => 0

def depthOfItems : List Json → Nat
  | [] => 0
  | j :: js => max (depth j) (depthOfItems js)

def depthOfFields : List (Option String × Json) → Nat
  | [] => 0
  | (_, j) :: fs => max (depth j) (depthOfFields fs)

end

mutual

/-- Whether every text is whole and every number in range. -/
def readable : Json → Bool
  | .num n => n.value?.isSome
  | .str s => s.isSome
  | .arr items => readableItems items
  | .obj fields => readableFields fields
  | _ => true

def readableItems : List Json → Bool
  | [] => true
  | j :: js => readable j && readableItems js

def readableFields : List (Option String × Json) → Bool
  | [] => true
  | (k, j) :: fs => k.isSome && readable j && readableFields fs

end

/-! ## Reading values -/

def text? : Json → Option String
  | .str s => s
  | _ => none

def bool? : Json → Option Bool
  | .bool b => some b
  | _ => none

def items? : Json → Option (List Json)
  | .arr items => some items
  | _ => none

/-- A whole number between two bounds, written without fraction or exponent. -/
def intIn? (low high : Int) : Json → Option Int
  | .num n =>
    match n.value? with
    | some (.integer i) => if low ≤ i && i ≤ high then some i else none
    | _ => none
  | _ => none

def natUpTo? (high : Nat) (j : Json) : Option Nat := (j.intIn? 0 high).map Int.toNat

def word? (j : Json) : Option Nat := j.natUpTo? Number.wordMax

def signedWord? (j : Json) : Option Int :=
  j.intIn? Int64.minValue.toInt Int64.maxValue.toInt

def float? : Json → Option Float
  | .num n =>
    match n.value? with
    | some (.integer i) => some (Float.ofInt i)
    | some (.float x) => some x
    | none => none
  | _ => none

/-- Null stands for nothing. -/
def optional (read : Json → Option α) : Json → Option (Option α)
  | .null => some none
  | j => (read j).map some

/-- The value of a field, if the object has exactly one of that name. -/
def fieldOnce? (fields : List (Option String × Json)) (name : String) : Option (Option Json) :=
  match fields.filter (·.1 = some name) with
  | [] => some none
  | [f] => some (some f.2)
  | _ => none

/-- The fields of a record, in the order of `names`; absent fields are none.  A record is an object
— whose further fields mean nothing, but which may not repeat a name of the record — or an array of
the values of the first few fields. -/
def record? (names : List String) : Json → Option (List (Option Json))
  | .obj fields =>
    if fields.all (·.1.isSome) then names.mapM (fieldOnce? fields) else none
  | .arr items =>
    if items.length ≤ names.length then
      some (items.map some ++ List.replicate (names.length - items.length) none)
    else none
  | _ => none

/-- The name of a choice without content, alone or as the one name of an object with null. -/
def choice? : Json → Option String
  | .str s => s
  | .obj [(name, .null)] => name
  | _ => none

/-! ## Writing -/

def hexDigit (n : Nat) : Char := "0123456789abcdef".toList.getD n '0'

/-- A character inside a quoted text. -/
def escapeChar (c : Char) : List Char :=
  match c with
  | '"' => ['\\', '"']
  | '\\' => ['\\', '\\']
  | '\n' => ['\\', 'n']
  | '\r' => ['\\', 'r']
  | '\t' => ['\\', 't']
  | '\x08' => ['\\', 'b']
  | '\x0c' => ['\\', 'f']
  | c =>
    if c.toNat < 32 then
      ['\\', 'u', '0', '0', hexDigit (c.toNat / 16), hexDigit (c.toNat % 16)]
    else [c]

def quoted (s : String) : String := String.ofList ('"' :: s.toList.flatMap escapeChar ++ ['"'])

def digitsText (ds : List Nat) : String := String.ofList (ds.map fun d => Char.ofNat (d + 48))

def Number.text (n : Number) : String :=
  (if n.negative then "-" else "") ++ digitsText n.whole
    ++ (match n.fraction with | none => "" | some ds => "." ++ digitsText ds)
    ++ (match n.exponent with
      | none => ""
      | some (positive, ds) => (if positive then "e+" else "e-") ++ digitsText ds)

def bracket (opening closing : String) (parts : List String) : String :=
  opening ++ String.intercalate "," parts ++ closing

mutual

/-- The document in its shortest writing. -/
def compact : Json → String
  | .null => "null"
  | .bool b => if b then "true" else "false"
  | .num n => n.text
  | .str s => quoted (s.getD "")
  | .arr items => bracket "[" "]" (compactItems items)
  | .obj fields => bracket "\x7b" "\x7d" (compactFields fields)

def compactItems : List Json → List String
  | [] => []
  | j :: js => compact j :: compactItems js

def compactFields : List (Option String × Json) → List String
  | [] => []
  | (k, j) :: fs => (quoted (k.getD "") ++ ":" ++ compact j) :: compactFields fs

end

end Json
end TileAtlas
