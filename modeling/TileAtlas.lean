import TileAtlas.Changeset
import TileAtlas.Command
import TileAtlas.Main
import TileAtlas.Pass.References
import TileAtlas.Pass.Stats
import TileAtlas.Pass.Tiles
import TileAtlas.Pass.Verify
import TileAtlas.Scan.Piece
import TileAtlas.Store
import TileAtlas.Update
import TileAtlas.Proofs.Runs.Records
import TileAtlas.Proofs.Runs.References
import TileAtlas.Proofs.Runs.Tiles
import TileAtlas.Proofs.Runs.DirtyElements
import TileAtlas.Proofs.Scan.Workers
import TileAtlas.Proofs.Tile.Descent
import TileAtlas.Proofs.Runs.DirtyTiles
import TileAtlas.Proofs.Store.Histories
import TileAtlas.Proofs.Runs.Repair
import TileAtlas.Proofs.Pass.Verify
import TileAtlas.Proofs.Index.Edges
import TileAtlas.Proofs.Runs.Batching
import TileAtlas.Proofs.Runs.Scans
import TileAtlas.Proofs.Runs.Replication
import TileAtlas.Proofs.Store.Merging
import TileAtlas.Proofs.Store.Ingesting
import TileAtlas.Proofs.Runs.Sharing
import TileAtlas.Proofs.Runs.FailedPasses
import TileAtlas.Proofs.Runs.RebuiltFlags
import TileAtlas.Proofs.Thinning.Naive
import TileAtlas.Proofs.Thinning.Queue
import TileAtlas.Proofs.Thinning.Steps
import TileAtlas.Proofs.Thinning.Refinement
import TileAtlas.Proofs.Thinning.Size
import TileAtlas.Proofs.Runs.Replays
import TileAtlas.Proofs.Thinning.Survivors
import TileAtlas.Proofs.Assembly.Stitch
import TileAtlas.Proofs.Tile.Lines
import TileAtlas.Proofs.Store.Scanning
import TileAtlas.Proofs.Runs.TileCalls
import TileAtlas.Proofs.Scan.Classify
import TileAtlas.Proofs.Runs.Reindexing
import TileAtlas.Proofs.Record.Canonical
import TileAtlas.Proofs.Scan.Weights
import TileAtlas.Proofs.Command.Tile
import TileAtlas.Proofs.Runs.Influence
import TileAtlas.Proofs.Tile.Blocks
import TileAtlas.Proofs.Tile.Packing
