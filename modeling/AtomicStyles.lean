import AtomicStyles.Proofs.Coverage
import AtomicStyles.Proofs.Counters
import AtomicStyles.Proofs.Cycles
import AtomicStyles.Proofs.Style.Shorthands
import AtomicStyles.Proofs.Style.Tokens
import AtomicStyles.Proofs.Style.Contexts
import AtomicStyles.Proofs.Extraction
import AtomicStyles.Proofs.Termination.Batch
import AtomicStyles.Proofs.Files.Identity
import AtomicStyles.Proofs.Files.Histories
import AtomicStyles.Proofs.Output.ReadBack
import AtomicStyles.Proofs.Detection
import AtomicStyles.Proofs.Retry
import AtomicStyles.Proofs.Binding.Failures
import AtomicStyles.Proofs.Binding.Initialized
import AtomicStyles.Proofs.Memo.Once
import AtomicStyles.Proofs.Replacing
import AtomicStyles.Proofs.Heap.Frozen
import AtomicStyles.Proofs.Heap.KeyOrder
import AtomicStyles.Proofs.Decimal.Texts
