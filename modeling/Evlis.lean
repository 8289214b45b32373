import Evlis.CommandLine
import Evlis.Main
import Evlis.Proofs.Demand
import Evlis.Proofs.Reference
import Evlis.Proofs.FrameChanges
import Evlis.Proofs.Trampoline
import Evlis.Proofs.FrameDiscipline
import Evlis.Proofs.Coherence
import Evlis.Proofs.Replay
import Evlis.Proofs.RoundTrip
import Evlis.Proofs.SharedAgreement
import Evlis.Proofs.Grammar
import Evlis.Proofs.WellFormedness
import Evlis.Proofs.ProgramReports
import Evlis.Proofs.IndependentBindings
import Evlis.Proofs.IrrelevantBindings
import Evlis.Proofs.InlineOperands
import Evlis.Proofs.PoolLiveness
import Evlis.Proofs.FaultReplay
import Evlis.Proofs.SharedFaults
import Evlis.Proofs.SlotConservation
import Evlis.Proofs.Handovers
import Evlis.Proofs.Provenance
import Evlis.Proofs.Rereading
import Evlis.Proofs.InnerRuns
import Evlis.Proofs.ClosureCalls
import Evlis.Proofs.LetrecBindings
import Evlis.Proofs.SyntaxFaults
import Evlis.Proofs.OperandVerdicts
import Evlis.Proofs.OperandCalls
import Evlis.Proofs.OperandOutcomes
import Evlis.Proofs.ExactArithmetic
import Evlis.Proofs.PrintedForms
import Evlis.Proofs.CountingLoop
import Evlis.Proofs.Lexing
import Evlis.Proofs.Selectors
import Evlis.Proofs.StreamUse
import Evlis.Proofs.ListBuilding
