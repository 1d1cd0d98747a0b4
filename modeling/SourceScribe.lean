import SourceScribe.Files.Tree
import SourceScribe.Main
import SourceScribe.Recording
import SourceScribe.Storage
import SourceScribe.Proofs.Composition
import SourceScribe.Proofs.Coverage
import SourceScribe.Proofs.Cycles
import SourceScribe.Proofs.Diagnostics
import SourceScribe.Proofs.Json.Saving
import SourceScribe.Proofs.Lookups
import SourceScribe.Proofs.Moments
import SourceScribe.Proofs.Pieces
import SourceScribe.Proofs.Preorder
import SourceScribe.Proofs.Refinement
import SourceScribe.Proofs.Renumbering
import SourceScribe.Proofs.Delimiters
import SourceScribe.Proofs.Nesting
import SourceScribe.Proofs.Balance
import SourceScribe.Proofs.Slots
import SourceScribe.Proofs.Ledger
import SourceScribe.Proofs.Skipping
import SourceScribe.Proofs.Reading
import SourceScribe.Proofs.Expressions
import SourceScribe.Proofs.Readability
import SourceScribe.Proofs.BlankLines
import SourceScribe.Proofs.Depths
import SourceScribe.Proofs.Discipline
import SourceScribe.Proofs.Disks
import SourceScribe.Proofs.Jobs
import SourceScribe.Proofs.Batches
import SourceScribe.Proofs.Unfolding
import SourceScribe.Proofs.Histories
import SourceScribe.Proofs.Inlining
import SourceScribe.Proofs.Representation
import SourceScribe.Proofs.Literals
import SourceScribe.Proofs.Comments
import SourceScribe.Proofs.Leaves
import SourceScribe.Proofs.Refusals
import SourceScribe.Proofs.Indents
import SourceScribe.Proofs.Names
import SourceScribe.Proofs.Json.Following
import SourceScribe.Proofs.Trailers
import SourceScribe.Proofs.Json.Passages
import SourceScribe.Proofs.Json.Agreement
import SourceScribe.Proofs.Settings
import SourceScribe.Proofs.Digits
import SourceScribe.Proofs.Visits
