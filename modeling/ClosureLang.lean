import ClosureLang.Host.Debug
import ClosureLang.Host.Serve
import ClosureLang.Main
import ClosureLang.Proofs.BoundNames
import ClosureLang.Proofs.Eval.Invariant
import ClosureLang.Proofs.Heap.Reach
import ClosureLang.Proofs.Termination
import ClosureLang.Proofs.Isolation
import ClosureLang.Proofs.Heap.Kept
import ClosureLang.Proofs.Accumulators
import ClosureLang.Proofs.DepthLimit
import ClosureLang.Proofs.Eval.Operands
import ClosureLang.Proofs.Eval.Moments
import ClosureLang.Proofs.Backtraces
import ClosureLang.Proofs.ContextRestored
import ClosureLang.Proofs.Program.Alike
import ClosureLang.Proofs.Eval.TwoTables
import ClosureLang.Proofs.InterningInvisible
import ClosureLang.Proofs.LexicalScoping
import ClosureLang.Proofs.Program.Unfolding
import ClosureLang.Proofs.Eval.TwoLayouts
import ClosureLang.Proofs.LayoutInvisible
import ClosureLang.Proofs.Eval.Preserved
import ClosureLang.Proofs.InBounds
import ClosureLang.Proofs.Eval.BodyScopes
import ClosureLang.Proofs.AnyInterpreter
import ClosureLang.Proofs.Heap.Changes
import ClosureLang.Proofs.Eval.Changes
import ClosureLang.Proofs.FrameTrees
import ClosureLang.Proofs.Ledger
import ClosureLang.Proofs.Store
import ClosureLang.Proofs.Eval.Erasure
import ClosureLang.Proofs.Eval.Handles
import ClosureLang.Proofs.Host.Lookups
import ClosureLang.Proofs.Host.Balanced
import ClosureLang.Proofs.Host.Runs
import ClosureLang.Proofs.ReferenceCounts
import ClosureLang.Proofs.Leaks
import ClosureLang.Proofs.Eval.Prints
import ClosureLang.Proofs.PrintingInvisible
import ClosureLang.Proofs.Eval.CallFrames
import ClosureLang.Proofs.RefusedCalls
import ClosureLang.Proofs.CompoundAssignment
import ClosureLang.Proofs.Eval.Makes
import ClosureLang.Proofs.Host.Creations
import ClosureLang.Proofs.FunctionIdentity
import ClosureLang.Proofs.Eval.Occurrences
import ClosureLang.Proofs.LexicalCapture
import ClosureLang.Proofs.TailReturns
import ClosureLang.Proofs.TextSlots
import ClosureLang.Proofs.Program.ReadBack
import ClosureLang.Proofs.FaithfulBuilds
import ClosureLang.Proofs.Eval.SplitFrames
import ClosureLang.Proofs.BlockBodies
import ClosureLang.Proofs.RunArguments
import ClosureLang.Proofs.Demonstrations
import ClosureLang.Proofs.BufferLines
import ClosureLang.Proofs.TextOrder
