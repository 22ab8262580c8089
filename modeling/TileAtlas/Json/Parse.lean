import TileAtlas.Json.Basic
/-!
# Reading JSON

The grammar to the letter: four blank characters, no leading zeros, no trailing commas, no control
characters in texts, nothing after the document.  Each reader takes the characters left and gives
back what it read and the characters then left.
-/
namespace TileAtlas.Json

def isBlank (c : Char) : Bool := c = ' ' || c = '\n' || c = '\t' || c = '\r'

def skipBlank (cs : List Char) : List Char := cs.dropWhile isBlank

/-! ## Texts -/

/-- One character of a text, or one 16-bit unit from an escape. -/
inductive Piece where
  | char (c : Char)
  | unit (n : Nat)

def hexValue? (c : Char) : Option Nat :=
  if '0' ≤ c ∧ c ≤ '9' then some (c.toNat - 48)
  else if 'a' ≤ c ∧ c ≤ 'f' then some (c.toNat - 87)
  else if 'A' ≤ c ∧ c ≤ 'F' then some (c.toNat - 55)
  else none

def unit? (a b c d : Char) : Option Nat := do
  let a ← hexValue? a
  let b ← hexValue? b
  let c ← hexValue? c
  let d ← hexValue? d
  return ((a * 16 + b) * 16 + c) * 16 + d

/-- The character after a backslash. -/
def simpleEscape? : Char → Option Char
  | '"' => some '"'
  | '\\' => some '\\'
  | '/' => some '/'
  | 'b' => some '\x08'
  | 'f' => some '\x0c'
  | 'n' => some '\n'
  | 'r' => some '\r'
  | 't' => some '\t'
  | _ => none

/-- The pieces of a text up to its closing quote. -/
def pieces : List Char → Option (List Piece × List Char)
  | [] => none
  | '"' :: r => some ([], r)
  | '\\' :: 'u' :: a :: b :: c :: d :: r => do
    let n ← unit? a b c d
    let (ps, r) ← pieces r
    return (.unit n :: ps, r)
  | '\\' :: e :: r => do
    let c ← simpleEscape? e
    let (ps, r) ← pieces r
    return (.char c :: ps, r)
  | c :: r =>
    if c.toNat < 32 || c = '\\' then none
    else do
      let (ps, r) ← pieces r
      return (.char c :: ps, r)

/-- Join pieces to characters; two units of a pair make one, and half a pair makes none. -/
def joinPieces : List Piece → Option (List Char)
  | [] => some []
  | .char c :: ps => (joinPieces ps).map (c :: ·)
  | .unit n :: ps =>
    if n < 0xD800 || 0xDFFF < n then (joinPieces ps).map (Char.ofNat n :: ·)
    else
      match ps with
      | .unit m :: rest =>
        if n ≤ 0xDBFF && 0xDC00 ≤ m && m ≤ 0xDFFF then
          (joinPieces rest).map (Char.ofNat (0x10000 + (n - 0xD800) * 1024 + (m - 0xDC00)) :: ·)
        else none
      | _ => none

/-- A text after its opening quote. -/
def textBody (cs : List Char) : Option (Option String × List Char) :=
  (pieces cs).map fun (ps, r) => ((joinPieces ps).map String.ofList, r)

/-! ## Numbers -/

def digit? (c : Char) : Option Nat := if c.isDigit then some (c.toNat - 48) else none

/-- The digits in front, and the rest. -/
def digits (cs : List Char) : List Nat × List Char :=
  ((cs.takeWhile Char.isDigit).map (fun c => c.toNat - 48), cs.dropWhile Char.isDigit)

def digits1 (cs : List Char) : Option (List Nat × List Char) :=
  match digits cs with
  | ([], _) => none
  | r => some r

def fraction (cs : List Char) : Option (Option (List Nat) × List Char) :=
  match cs with
  | '.' :: r => (digits1 r).map fun (ds, r) => (some ds, r)
  | _ => some (none, cs)

def exponent (cs : List Char) : Option (Option (Bool × List Nat) × List Char) :=
  match cs with
  | c :: r =>
    if c = 'e' || c = 'E' then
      match r with
      | '+' :: r => (digits1 r).map fun (ds, r) => (some (true, ds), r)
      | '-' :: r => (digits1 r).map fun (ds, r) => (some (false, ds), r)
      | _ => (digits1 r).map fun (ds, r) => (some (true, ds), r)
    else some (none, cs)
  | [] => some (none, cs)

def unsigned (negative : Bool) (cs : List Char) : Option (Number × List Char) := do
  let (whole, r) ← digits1 cs
  if whole.length ≠ 1 && whole.head? = some 0 then none
  else
    let (frac, r) ← fraction r
    let (exp, r) ← exponent r
    return (⟨negative, whole, frac, exp⟩, r)

def number (cs : List Char) : Option (Number × List Char) :=
  match cs with
  | '-' :: r => unsigned true r
  | _ => unsigned false cs

/-! ## Documents -/

/-- Drop a word in front. -/
def word (w : String) (cs : List Char) : Option (List Char) :=
  let w := w.toList
  if w.isPrefixOf cs then some (cs.drop w.length) else none

mutual

/-- A value; each level of nesting and each further item costs one unit of fuel. -/
def value : Nat → List Char → Option (Json × List Char)
  | 0, _ => none
  | fuel + 1, cs =>
    match skipBlank cs with
    | '"' :: r => (textBody r).map fun (s, r) => (.str s, r)
    | '[' :: r =>
      match skipBlank r with
      | ']' :: r => some (.arr [], r)
      | r => (items fuel r).map fun (js, r) => (.arr js, r)
    | '\x7b' :: r =>
      match skipBlank r with
      | '\x7d' :: r => some (.obj [], r)
      | r => (fields fuel r).map fun (fs, r) => (.obj fs, r)
    | 'n' :: r => (word "ull" r).map fun r => (.null, r)
    | 't' :: r => (word "rue" r).map fun r => (.bool true, r)
    | 'f' :: r => (word "alse" r).map fun r => (.bool false, r)
    | r => (number r).map fun (n, r) => (.num n, r)

/-- The items of an array, up to its closing bracket. -/
def items : Nat → List Char → Option (List Json × List Char)
  | 0, _ => none
  | fuel + 1, cs => do
    let (j, r) ← value fuel cs
    match skipBlank r with
    | ']' :: r => return ([j], r)
    | ',' :: r => do
      let (js, r) ← items fuel r
      return (j :: js, r)
    | _ => none

/-- The fields of an object, up to its closing brace. -/
def fields : Nat → List Char → Option (List (Option String × Json) × List Char)
  | 0, _ => none
  | fuel + 1, cs =>
    match skipBlank cs with
    | '"' :: r => do
      let (k, r) ← textBody r
      match skipBlank r with
      | ':' :: r => do
        let (j, r) ← value fuel r
        match skipBlank r with
        | '\x7d' :: r => return ([(k, j)], r)
        | ',' :: r => do
          let (fs, r) ← fields fuel r
          return ((k, j) :: fs, r)
        | _ => none
      | _ => none
    | _ => none

end

/-- The document that a text spells, if it is one. -/
def parse? (s : String) : Option Json := do
  let cs := s.toList
  let (j, r) ← value (2 * cs.length + 2) cs
  if (skipBlank r).isEmpty then some j else none

end TileAtlas.Json
