import HackVm.File.Disk
import HackVm.Main
import HackVm.Proofs.BlockEffects
import HackVm.Proofs.Captures
import HackVm.Proofs.Comments
import HackVm.Proofs.Frame
import HackVm.Proofs.Joining
import HackVm.Proofs.LabelTable
import HackVm.Proofs.OperandLimits
import HackVm.Proofs.Outcomes
import HackVm.Proofs.Positions
import HackVm.Proofs.Printing
import HackVm.Proofs.Readback
import HackVm.Proofs.Refusals
import HackVm.Proofs.Session
import HackVm.Proofs.Simulation
import HackVm.Proofs.StraightLine
import HackVm.Proofs.Placement
import HackVm.Proofs.Carets
import HackVm.Proofs.Whitespace
import HackVm.Proofs.ByteOrder
import HackVm.Proofs.Collection
import HackVm.Proofs.Endings
import HackVm.Proofs.OutputNames
import HackVm.Proofs.Rebuilding
import HackVm.Proofs.FileNames
import HackVm.Proofs.CursorSteps
import HackVm.Proofs.Locations
import HackVm.Proofs.Resolution
import HackVm.Proofs.Watching
