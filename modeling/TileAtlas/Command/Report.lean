import TileAtlas.Command.Inspect
import TileAtlas.Pass.Tiles
import TileAtlas.Pass.Verify
/-!
# What commands print

Each command prints one document, with its fields in a fixed order.
-/
namespace TileAtlas
namespace Report

def tile (t : TilePosition) : Json := .arr [.ofInt t.x, .ofInt t.y]

def tiles (ts : List TilePosition) : Json := .ofList tile ts

def ofUpdate (r : UpdateReport) : Json :=
  .object
    [("sequence", .ofOption (fun n => .ofNat n.toNat) r.sequence), ("created", .ofNat r.created),
      ("modified", .ofNat r.modified), ("deleted", .ofNat r.deleted), ("skipped", .ofNat r.skipped),
      ("reindexed", .ofNat r.dirtyElements.size), ("dirty_tiles", tiles r.dirtyTiles.toList)]

def ofReplication (s : ReplicationState) : Json :=
  .object
    [("sequence_number", .ofOption (fun n => .ofNat n.toNat) s.sequence),
      ("timestamp", .ofOption (fun t => .ofInt t.toInt) s.timestamp)]

def ofStats (s : IndexStats) (r : ReplicationState) : Json :=
  .object
    [("nodes", .ofNat s.nodes), ("ways", .ofNat s.ways), ("relations", .ofNat s.relations),
      ("coastlines", .ofNat s.coastlines), ("deleted", .ofNat s.deleted), ("tiles", .ofNat s.tiles),
      ("memberships", .ofNat s.memberships), ("dirty_tiles", .ofNat s.dirtyTiles),
      ("dirty_elements", .ofNat s.dirtyElements), ("replication", ofReplication r)]

def ofTileEntry (e : TileEntry) : Json :=
  .object
    [("id", .text e.id.text), ("kind", .text e.id.kind.name), ("local_id", .ofNat e.id.localId),
      ("form", .text (TileEntry.formName e.form)), ("bytes", .ofNat e.length),
      ("geometry", .ofOption (fun g => .text g.kindName) e.geometry)]

def ofTileRebuild (r : TileRebuild) : Json :=
  .object
    [("elements", .ofNat r.elements), ("features", .ofNat r.features),
      ("memberships", .ofNat r.memberships)]

/-- The passes that did not run are null. -/
def ofRebuild (references : Option Nat) (tiles : Option TileRebuild) : Json :=
  .object
    [("reference_edges", .ofOption .ofNat references), ("tiles", .ofOption ofTileRebuild tiles)]

def ofIssue (i : Issue) : Json :=
  .object [("id", .text i.id.text), ("problem", .text i.problem.message)]

def ofVerify (r : VerifyReport) : Json :=
  .object [("elements_checked", .ofNat r.checked), ("issues", .ofList ofIssue r.issues)]

end Report
end TileAtlas
