import Microcode.Main
import Microcode.Proofs.Refinement
import Microcode.Proofs.Barrier
import Microcode.Proofs.Inlining
import Microcode.Proofs.Bookkeeping
import Microcode.Proofs.Comment
import Microcode.Proofs.Substitution
import Microcode.Proofs.Survival
import Microcode.Proofs.Numbers
import Microcode.Proofs.Dispatch
import Microcode.Proofs.Constness
import Microcode.Proofs.Precedence
import Microcode.Proofs.ScalarValue
import Microcode.Proofs.LoadSequence
import Microcode.Proofs.Passing
import Microcode.Proofs.Estimate
import Microcode.Proofs.Inclusion
import Microcode.Proofs.Expansion
import Microcode.Proofs.TailCall
import Microcode.Proofs.Reciprocal
import Microcode.Proofs.EditDistance
import Microcode.Proofs.Acceptance
import Microcode.Proofs.Nesting
import Microcode.Proofs.Colour
import Microcode.Proofs.LaneConstant
import Microcode.Proofs.SingleLane
