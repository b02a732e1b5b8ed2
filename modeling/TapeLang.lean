import TapeLang.Assembly.Assemble
import TapeLang.Block.Walk
import TapeLang.Main
import TapeLang.Stream.EndOfTransmission
import TapeLang.Proofs.TapeAlgebra
import TapeLang.Proofs.TapeLoops
import TapeLang.Proofs.Effects
import TapeLang.Proofs.Code
import TapeLang.Proofs.Windows
import TapeLang.Proofs.Fusion
import TapeLang.Proofs.Layout
import TapeLang.Proofs.Matching
import TapeLang.Proofs.Linking
import TapeLang.Proofs.Optimizing
import TapeLang.Proofs.MachineRuns
import TapeLang.Proofs.WalkRuns
import TapeLang.Proofs.Folding
import TapeLang.Proofs.Preservation
import TapeLang.Proofs.NormalForm
import TapeLang.Proofs.WellFormed
import TapeLang.Proofs.Safety
import TapeLang.Proofs.Delivery
import TapeLang.Proofs.Scanning
import TapeLang.Proofs.Brackets
import TapeLang.Proofs.Nesting
import TapeLang.Proofs.Parsing
import TapeLang.Proofs.Assembling
import TapeLang.Proofs.Words
import TapeLang.Proofs.Printing
import TapeLang.Proofs.Listings
import TapeLang.Proofs.ChannelUse
import TapeLang.Proofs.InputOrder
import TapeLang.Proofs.Interruptions
import TapeLang.Proofs.Resumption
import TapeLang.Proofs.LoopWindows
import TapeLang.Proofs.Encoding
import TapeLang.Proofs.TokenPlaces
import TapeLang.Proofs.Partners
import TapeLang.Proofs.SourceReading
import TapeLang.Proofs.ReadFailures
import TapeLang.Proofs.Rotation
import TapeLang.Proofs.Areas
import TapeLang.Proofs.BodySizes
import TapeLang.Proofs.InstructionCounts
import TapeLang.Proofs.Steps
import TapeLang.Proofs.Flushing
import TapeLang.Proofs.FaultPlaces
import TapeLang.Proofs.Transmissions
import TapeLang.Proofs.Closing
import TapeLang.Proofs.Dumps
import TapeLang.Proofs.Symmetries
import TapeLang.Proofs.Mirroring
import TapeLang.Proofs.Arguments
import TapeLang.Proofs.InputFiles
import TapeLang.Proofs.AreaMerging
import TapeLang.Proofs.Runs
import TapeLang.Proofs.JumpPairs
import TapeLang.Proofs.Pruning
