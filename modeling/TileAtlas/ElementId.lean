import TileAtlas.Bytes
/-!
# Element identifiers

An element is named by one 64-bit number: two bits say what kind of element it is, the other
sixty-two are its number among its kind.  The big-endian key of an identifier therefore sorts
elements by kind, then by number.
-/
namespace TileAtlas

inductive ElementKind where
  | node
  | way
  | relation
  | coastline
deriving DecidableEq, Repr

namespace ElementKind

def name : ElementKind → String
  | node => "node"
  | way => "way"
  | relation => "relation"
  | coastline => "coastline"

/-- The two bits that stand for the kind. -/
def code : ElementKind → Nat
  | node => 0
  | way => 1
  | relation => 2
  | coastline => 3

def ofCode : Nat → ElementKind
  | 0 => node
  | 1 => way
  | 2 => relation
  | _ => coastline

def all : List ElementKind := [node, way, relation, coastline]

def ofName? (s : String) : Option ElementKind := all.find? (·.name = s)

@[simp] theorem ofCode_code (k : ElementKind) : ofCode k.code = k := by cases k <;> rfl

end ElementKind

structure ElementId where
  raw : UInt64
deriving DecidableEq

inductive ElementIdError where
  /-- The number needs more than sixty-two bits. -/
  | outOfRange (kind : ElementKind) (number : Nat)
  | negative (kind : ElementKind) (number : Int)
deriving DecidableEq

def ElementIdError.message : ElementIdError → String
  | outOfRange kind n => s!"{kind.name} id {n} exceeds the 62-bit identifier range"
  | negative kind n => s!"{kind.name} id {n} is negative"

namespace ElementId

instance : Ord ElementId := ⟨fun a b => compare a.raw b.raw⟩

instance : Std.TransOrd ElementId := inferInstanceAs (Std.TransCmp (compareOn ElementId.raw))

instance : Std.LawfulEqOrd ElementId where
  compare_self {a} := @Std.ReflCmp.compare_self UInt64 compare _ a.raw
  eq_of_compare {a b} h := by
    cases a; cases b
    exact congrArg ElementId.mk (Std.LawfulEqOrd.eq_of_compare h)

/-- How many numbers a kind has. -/
def locals : Nat := 1 <<< 62

/-- The largest number an element may have among its kind. -/
def maxLocal : Nat := locals - 1

/-- The identifier of the element of a kind with a number. -/
def ofLocal (kind : ElementKind) (n : Nat) : Except ElementIdError ElementId :=
  if maxLocal < n then .error (.outOfRange kind n)
  else .ok ⟨UInt64.ofNat (kind.code * locals + n)⟩

/-- The same for a number that may be negative, as edits of elements not yet uploaded have it. -/
def ofSigned (kind : ElementKind) (n : Int) : Except ElementIdError ElementId :=
  if n < 0 then .error (.negative kind n) else ofLocal kind n.toNat

def kind (id : ElementId) : ElementKind := .ofCode (id.raw.toNat / locals)

def localId (id : ElementId) : Nat := id.raw.toNat % locals

def key (id : ElementId) : Bytes := Bytes.ofNatBE 8 id.raw.toNat

/-- The identifier that the first eight bytes spell. -/
def ofKey? (key : Bytes) : Option ElementId :=
  if key.length < 8 then none else some ⟨UInt64.ofNat (Bytes.toNatBE (key.take 8))⟩

/-- Kind and number, as in way/10. -/
def text (id : ElementId) : String := s!"{id.kind.name}/{id.localId}"

theorem kind_ofLocal {kind : ElementKind} {n : Nat} {id : ElementId}
    (h : ofLocal kind n = .ok id) : id.kind = kind ∧ id.localId = n := by
  unfold ofLocal at h
  split at h
  · cases h
  · rename_i hn
    injection h with h
    subst h
    have hl : locals = 4611686018427387904 := rfl
    have hc : kind.code < 4 := by cases kind <;> decide
    rw [maxLocal, hl] at hn
    constructor
    · have : (kind.code * locals + n) % UInt64.size / locals = kind.code := by
        simp only [UInt64.size, hl]; omega
      rw [ElementId.kind, UInt64.toNat_ofNat', this, ElementKind.ofCode_code]
    · simp only [localId, UInt64.toNat_ofNat', hl]
      omega

end ElementId
end TileAtlas
