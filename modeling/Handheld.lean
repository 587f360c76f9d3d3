import Handheld.FlatMemory
import Handheld.Main
import Handheld.Proofs.Duration
import Handheld.Proofs.Faults
import Handheld.Proofs.ReadAfterWrite
import Handheld.Proofs.Rom
import Handheld.Proofs.Repeating
import Handheld.Proofs.Halting
import Handheld.Proofs.Clock
import Handheld.Proofs.Lockstep
import Handheld.Proofs.PlainMemory
import Handheld.Proofs.BusFaults
import Handheld.Proofs.Effects
import Handheld.Proofs.ControlFlow
import Handheld.Proofs.Footprint
import Handheld.Proofs.InterruptSwitch
import Handheld.Proofs.Bookkeeping
import Handheld.Proofs.Drawing
import Handheld.Proofs.Interleaving
import Handheld.Proofs.Assembly
import Handheld.Proofs.Answers
import Handheld.Proofs.FaultCosts
import Handheld.Proofs.ImageWindow
import Handheld.Proofs.SerialCapture
import Handheld.Proofs.Stack
import Handheld.Proofs.Subroutines
import Handheld.Proofs.LongArithmetic
import Handheld.Proofs.DecimalArithmetic
import Handheld.Proofs.WordArithmetic
import Handheld.Proofs.Operands
import Handheld.Proofs.LongShifts
import Handheld.Proofs.Listings
import Handheld.Proofs.WriteOrder
import Handheld.Proofs.Frames
import Handheld.Proofs.Rendering
import Handheld.Proofs.Scanlines
import Handheld.Proofs.CopyingIn
import Handheld.Proofs.Setup
