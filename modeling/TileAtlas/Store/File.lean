import TileAtlas.Record
import TileAtlas.Store.Op
/-!
# Stores in files

A file keeps a store as its rows: number of the column, key and value, column by column and in the
order of keys, after a mark that tells such files from others.  An empty file is an empty store.
-/
namespace TileAtlas
namespace StoreFile

/-- What such a file begins with. -/
def mark : Bytes := Bytes.ofString "tile atlas 1\n"

/-- Bytes as a count and the bytes. -/
def blob : Format Bytes where
  write bs := (Format.word 8).write bs.length ++ bs
  read bs := ((Format.word 8).read bs).andThen Format.takeBytes

abbrev Row := Nat × Bytes × Bytes

def rows : Format (List Row) := Format.list ((Format.word 1).pair (blob.pair blob))

def rowsOf (s : Contents) : List Row :=
  Column.all.flatMap fun c => (Columns.get s c).toList.map fun p => (c.number, p.1, p.2)

def addRow (s : Contents) (row : Row) : Option Contents :=
  (Column.ofNumber? row.1).map fun c => Columns.modify s c (·.insert row.2.1 row.2.2)

def encode (s : Contents) : Bytes := mark ++ rows.write (rowsOf s)

/-- The store that a file holds. -/
def decode? (file : Bytes) : Option Contents :=
  if file.isEmpty then some .empty
  else if mark.isPrefixOf file then
    match rows.read (file.drop mark.length) with
    | .ok (found, []) => found.foldlM addRow .empty
    | _ => none
  else none

end StoreFile
end TileAtlas
