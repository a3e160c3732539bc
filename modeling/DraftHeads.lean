import DraftHeads.Checkpoint.Synthetic
import DraftHeads.Main
import DraftHeads.Proofs.Draft.CandidateTree
import DraftHeads.Proofs.Draft.Shares
import DraftHeads.Proofs.Draft.Tied
import DraftHeads.Proofs.Draft.SingleRanking
import DraftHeads.Proofs.Checkpoint.Path
import DraftHeads.Proofs.Checkpoint.Routing
import DraftHeads.Proofs.Checkpoint.Conflicts
import DraftHeads.Proofs.Checkpoint.TensorFile
import DraftHeads.Proofs.Checkpoint.Lookup
import DraftHeads.Proofs.Checkpoint.Storage
import DraftHeads.Proofs.Draft.Reading
import DraftHeads.Proofs.Checkpoint.Splitting
import DraftHeads.Proofs.Number.Exponential
import DraftHeads.Proofs.Draft.Proposal
import DraftHeads.Proofs.Draft.Refusal
import DraftHeads.Proofs.Draft.LanguageHead
import DraftHeads.Proofs.Checkpoint.Combined
import DraftHeads.Proofs.Draft.Simulated
import DraftHeads.Proofs.Config.RoundTrip
import DraftHeads.Proofs.Checkpoint.Refusals
import DraftHeads.Proofs.Shard.Vocabulary
import DraftHeads.Proofs.Cli.Saves
import DraftHeads.Proofs.Shard.Columns
import DraftHeads.Proofs.Shard.UnknownTokens
import DraftHeads.Proofs.Draft.WrappedTokens
import DraftHeads.Proofs.Draft.Requirements
import DraftHeads.Proofs.Shard.Acceptance
import DraftHeads.Proofs.Shard.Ranges
import DraftHeads.Proofs.Shard.ForeignTokens
import DraftHeads.Proofs.Checkpoint.IndexedFiles
import DraftHeads.Proofs.Number.LeakyMasks
import DraftHeads.Proofs.Checkpoint.NumberedNames
import DraftHeads.Proofs.Cli.SavedDefaults
import DraftHeads.Proofs.Cli.Precedence
import DraftHeads.Proofs.Draft.Selection
import DraftHeads.Proofs.Draft.EmptyBatch
import DraftHeads.Proofs.Draft.SyntheticCheckpoint
import DraftHeads.Proofs.Checkpoint.EqualKeys
import DraftHeads.Proofs.Draft.Rescaling
import DraftHeads.Proofs.Draft.Mixing
