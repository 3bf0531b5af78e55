import FrameRecovery.Main
import FrameRecovery.Sorted.Text
import FrameRecovery.Text.Quoted
import FrameRecovery.Proofs.Session
import FrameRecovery.Proofs.RegisterLinks
import FrameRecovery.Proofs.UseChains
import FrameRecovery.Proofs.ControlFlow
import FrameRecovery.Proofs.Calls
import FrameRecovery.Proofs.Restored
import FrameRecovery.Proofs.RestoredValues
import FrameRecovery.Proofs.Passes
import FrameRecovery.Proofs.Offsets
import FrameRecovery.Proofs.Inlining
import FrameRecovery.Proofs.Meaning
import FrameRecovery.Proofs.Exhausted
import FrameRecovery.Proofs.SingleAssignment
import FrameRecovery.Proofs.Flow.Embedding
import FrameRecovery.Proofs.Flow.Parallel
import FrameRecovery.Proofs.Schedule
import FrameRecovery.Proofs.Tagging.Complete
import FrameRecovery.Proofs.Tagging.Dressed
import FrameRecovery.Proofs.Tagging.Inverse
import FrameRecovery.Proofs.AddressTexts
import FrameRecovery.Proofs.MemoryLinks
import FrameRecovery.Proofs.Tagging.Leftover
import FrameRecovery.Proofs.Arrangement
import FrameRecovery.Proofs.Blocks
import FrameRecovery.Proofs.ReachingDefinitions
import FrameRecovery.Proofs.PrunedRuns
import FrameRecovery.Proofs.Relabel.Session
import FrameRecovery.Proofs.Simplified
import FrameRecovery.Proofs.DeadDefinitions
import FrameRecovery.Proofs.SharedFrame
import FrameRecovery.Proofs.Written.Listing
import FrameRecovery.Proofs.Written.Continued
import FrameRecovery.Proofs.Targets
import FrameRecovery.Proofs.Movable
import FrameRecovery.Proofs.Spellings
