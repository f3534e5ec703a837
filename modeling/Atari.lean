import Atari.Board.Action
import Atari.Delegate
import Atari.Files.Tree
import Atari.Main
import Atari.Palette
import Atari.Proofs.Antic.Frame
import Atari.Proofs.Antic.Lines
import Atari.Proofs.Board.Clearing
import Atari.Proofs.Board.Lawful
import Atari.Proofs.Board.Nesting
import Atari.Proofs.Board.Ranges
import Atari.Proofs.Machine.Breakpoints
import Atari.Proofs.Machine.Built
import Atari.Proofs.Machine.Frames
import Atari.Proofs.Machine.Initial
import Atari.Proofs.MachineFile.Order
import Atari.Proofs.Processor.Listing
import Atari.Proofs.Processor.Return
import Atari.Proofs.Raster
import Atari.Proofs.Segments
import Atari.Proofs.Processor.Documented
import Atari.Proofs.Processor.BreakFlag
import Atari.Proofs.Processor.Footprint
import Atari.Proofs.Processor.Targets
import Atari.Proofs.Antic.Fetches
import Atari.Proofs.Antic.Repeat
import Atari.Proofs.Disassembly
import Atari.Proofs.Antic.Interrupts
import Atari.Proofs.Machine.Quiet
import Atari.Proofs.Antic.Beam
import Atari.Proofs.Processor.UnusedBit
import Atari.Proofs.Machine.Trace
import Atari.Proofs.MachineFile.Variables
import Atari.Proofs.Processor.Shifts
import Atari.Proofs.Machine.Vectors
import Atari.Proofs.Processor.DecimalSums
import Atari.Proofs.Antic.ScreenMemory
import Atari.Proofs.Processor.PageZero
import Atari.Proofs.AddressSpelling
import Atari.Proofs.HexDump
import Atari.Proofs.Machine.Halting
import Atari.Proofs.Delegate
import Atari.Proofs.Offsets
import Atari.Proofs.Processor.LastInFirstOut
