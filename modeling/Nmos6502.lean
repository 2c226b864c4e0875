import Nmos6502.Bench.Panel
import Nmos6502.Bench.Parts
import Nmos6502.Bench.Session
import Nmos6502.Bench.Sweep
import Nmos6502.Proofs.Processor
import Nmos6502.Proofs.Step
import Nmos6502.Proofs.Lookahead
import Nmos6502.Proofs.Simulation
import Nmos6502.Proofs.Traffic
import Nmos6502.Proofs.Multibyte
import Nmos6502.Proofs.Flat
import Nmos6502.Proofs.Format
import Nmos6502.Proofs.Continuation
import Nmos6502.Proofs.Routing
import Nmos6502.Proofs.ByteMap
import Nmos6502.Proofs.Quiet
import Nmos6502.Proofs.Run
import Nmos6502.Proofs.Tracing
import Nmos6502.Proofs.SelfTest
import Nmos6502.Proofs.Handler
import Nmos6502.Proofs.BreakFlag
import Nmos6502.Proofs.Masking
import Nmos6502.Proofs.Timing
import Nmos6502.Proofs.Listing
import Nmos6502.Proofs.AssemblyText
import Nmos6502.Proofs.MemoryListing
import Nmos6502.Proofs.RoundTrip
import Nmos6502.Proofs.Rejection
import Nmos6502.Proofs.Stepping
import Nmos6502.Proofs.Footprint
import Nmos6502.Proofs.PackedDecimal
import Nmos6502.Proofs.PackedNumber
import Nmos6502.Proofs.Placement
import Nmos6502.Proofs.Stack
import Nmos6502.Proofs.Subroutine
import Nmos6502.Proofs.SoftwareInterrupt
import Nmos6502.Proofs.Cells
import Nmos6502.Proofs.Rotation
import Nmos6502.Proofs.Accesses
import Nmos6502.Proofs.SplitMemory
import Nmos6502.Proofs.Trap
import Nmos6502.Proofs.CycleAccount
import Nmos6502.Proofs.Firing
import Nmos6502.Proofs.PanelRun
import Nmos6502.Proofs.TraceLine
import Nmos6502.Proofs.ProgramLoad
import Nmos6502.Proofs.TestLog
