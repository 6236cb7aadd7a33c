import DialGraphics.Diagnostic
import DialGraphics.Proofs.Bitmap.InnerBounds
import DialGraphics.Proofs.Bitmap.LegacyPixels
import DialGraphics.Proofs.Bitmap.PaletteEntries
import DialGraphics.Proofs.Bitmap.RowSizes
import DialGraphics.Proofs.Draw.PointSettings
import DialGraphics.Proofs.Machine.AnyBytes
import DialGraphics.Proofs.Machine.ChunkScan
import DialGraphics.Proofs.Machine.Disk
import DialGraphics.Proofs.Machine.Drawing
import DialGraphics.Proofs.Machine.InPlaceFilters
import DialGraphics.Proofs.Machine.Loading
import DialGraphics.Proofs.Machine.Palettize
import DialGraphics.Proofs.Machine.PlayingTime
import DialGraphics.Proofs.Machine.Traversal
import DialGraphics.Proofs.Png.ExactSize
import DialGraphics.Proofs.Png.FrameCount
import DialGraphics.Proofs.Png.UnknownChunks
import DialGraphics.Proofs.Resource.Loaders
import DialGraphics.Proofs.Workspace.Balance
