import TileAtlas.Bytes
/-!
# Formats of stored records

A format writes a value as bytes and reads a value back from the front of some bytes, leaving the
rest.  Formats are built from those of words, flags and texts: in sequence, as an optional value,
as a counted list, or as a numbered choice.  Words have a fixed width, least significant byte
first; a count is a word of eight bytes.

A whole record is a version byte and then one value; bytes after the value mean nothing.
-/
namespace TileAtlas

/-- Why bytes are not a value of a format. -/
inductive RecordFault where
  /-- The bytes end too soon. -/
  | eof
  | utf8
  /-- A flag other than 0 and 1. -/
  | flag
  /-- The mark of an optional value other than 0 and 1. -/
  | optionMark
  /-- A choice that there is not. -/
  | choice
deriving DecidableEq

abbrev ReadResult (α : Type) := Except RecordFault (α × Bytes)

/-- Read on where a first value ended. -/
def ReadResult.andThen (r : ReadResult α) (next : α → Bytes → ReadResult β) : ReadResult β :=
  match r with
  | .ok (a, rest) => next a rest
  | .error fault => .error fault

structure Format (α : Type) where
  write : α → Bytes
  read : Bytes → ReadResult α

namespace Format

variable {α β : Type}

/-- The first `n` bytes. -/
def takeBytes : Nat → Bytes → ReadResult Bytes
  | 0, bs => .ok ([], bs)
  | _ + 1, [] => .error .eof
  | n + 1, b :: bs => (takeBytes n bs).andThen fun taken rest => .ok (b :: taken, rest)

/-- A word of `width` bytes; larger numbers lose their high bytes. -/
def word (width : Nat) : Format Nat where
  write n := Bytes.ofNatLE width n
  read bs := (takeBytes width bs).andThen fun ws rest => .ok (Bytes.toNatLE ws, rest)

/-- The same bytes, read as something else. -/
def via (f : Format α) (pack : α → β) (unpack : β → α) : Format β where
  write b := f.write (unpack b)
  read bs := (f.read bs).andThen fun a rest => .ok (pack a, rest)

/-- One value after another. -/
def pair (f : Format α) (g : Format β) : Format (α × β) where
  write ab := f.write ab.1 ++ g.write ab.2
  read bs := (f.read bs).andThen fun a rest =>
    (g.read rest).andThen fun b rest => .ok ((a, b), rest)

/-- One byte that is 0 or 1. -/
def bit (fault : RecordFault) : Format Bool where
  write b := [if b then 1 else 0]
  read
    | [] => .error .eof
    | m :: rest => if m = 0 then .ok (false, rest) else if m = 1 then .ok (true, rest) else .error fault

def bool : Format Bool := bit .flag

def option (f : Format α) : Format (Option α) where
  write
    | none => (bit .optionMark).write false
    | some a => (bit .optionMark).write true ++ f.write a
  read bs := ((bit .optionMark).read bs).andThen fun there rest =>
    if there then (f.read rest).andThen fun a rest => .ok (some a, rest) else .ok (none, rest)

/-- As many values as are counted. -/
def readItems (f : Format α) : Nat → Bytes → ReadResult (List α)
  | 0, bs => .ok ([], bs)
  | n + 1, bs => (f.read bs).andThen fun a rest =>
    (readItems f n rest).andThen fun as rest => .ok (a :: as, rest)

def list (f : Format α) : Format (List α) where
  write as := (word 8).write as.length ++ as.flatMap f.write
  read bs := ((word 8).read bs).andThen (readItems f)

/-- A text as a count of bytes and the bytes. -/
def string : Format String where
  write s := (word 8).write (Bytes.ofString s).length ++ Bytes.ofString s
  read bs := ((word 8).read bs).andThen fun n rest =>
    (takeBytes n rest).andThen fun text rest =>
      match Bytes.toString? text with
      | some s => .ok (s, rest)
      | none => .error .utf8

/-- A choice among numbered cases: the number in four bytes, then the case. -/
def choice (number : α → Nat) (case : Nat → Option (Format α)) : Format α where
  write a := (word 4).write (number a) ++ ((case (number a)).elim [] fun f => f.write a)
  read bs := ((word 4).read bs).andThen fun n rest =>
    match case n with
    | some f => f.read rest
    | none => .error .choice

end Format

/-! ## Records -/

/-- What a record holds. -/
inductive RecordType where
  | element
  | feature
deriving DecidableEq

def RecordType.name : RecordType → String
  | element => "element"
  | feature => "feature"

inductive CodecError where
  | empty (what : RecordType)
  | unsupportedVersion (what : RecordType) (found : UInt8)
  | malformed (what : RecordType) (fault : RecordFault)
deriving DecidableEq

/-- The version of the records that are written and understood. -/
def recordVersion : UInt8 := 1

def RecordFault.message : RecordFault → String
  | eof => "unexpected end of record"
  | utf8 => "text is not valid UTF-8"
  | flag => "flag is neither 0 nor 1"
  | optionMark => "option mark is neither 0 nor 1"
  | choice => "unknown variant"

def CodecError.message : CodecError → String
  | empty what => s!"stored {what.name} record is empty"
  | unsupportedVersion what found =>
    s!"unsupported {what.name} record version {found}; supported version is {recordVersion}"
  | malformed what fault => s!"failed to encode or decode {what.name} record: {fault.message}"

namespace Format

variable {α : Type}

def encodeRecord (f : Format α) (a : α) : Bytes := recordVersion :: f.write a

def decodeRecord (what : RecordType) (f : Format α) : Bytes → Except CodecError α
  | [] => .error (.empty what)
  | v :: bs =>
    if v ≠ recordVersion then .error (.unsupportedVersion what v)
    else
      match f.read bs with
      | .ok (a, _) => .ok a
      | .error fault => .error (.malformed what fault)

end Format
end TileAtlas
