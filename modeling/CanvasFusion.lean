import CanvasFusion.Command.Folder
import CanvasFusion.Main
import CanvasFusion.Proofs.Eval.RowMajor
import CanvasFusion.Proofs.Eval.Unfed
import CanvasFusion.Proofs.Eval.WriteOnce
import CanvasFusion.Proofs.Fusion.AdapterCounts
import CanvasFusion.Proofs.Fusion.AdapterRuns
import CanvasFusion.Proofs.Fusion.ChainPasses
import CanvasFusion.Proofs.Fusion.Formats
import CanvasFusion.Proofs.Fusion.Identity
import CanvasFusion.Proofs.Fusion.OutputOrder
import CanvasFusion.Proofs.Fusion.Renumbering
import CanvasFusion.Proofs.Fusion.Samples
import CanvasFusion.Proofs.Graph.ConstantData
import CanvasFusion.Proofs.Tiling.Factors
import CanvasFusion.Proofs.Tiling.Layouts
import CanvasFusion.Proofs.Tiling.Partition
import CanvasFusion.Proofs.Tiling.WindowGaps
import CanvasFusion.Text.Quoted
