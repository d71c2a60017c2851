import ReleaseLog.Main
import ReleaseLog.Proofs.Appending
import ReleaseLog.Proofs.Classification
import ReleaseLog.Proofs.CommandLine
import ReleaseLog.Proofs.Coverage
import ReleaseLog.Proofs.Disabling
import ReleaseLog.Proofs.Editor.Agreement
import ReleaseLog.Proofs.Editor.History
import ReleaseLog.Proofs.Editor.Naming
import ReleaseLog.Proofs.Editor.Nesting
import ReleaseLog.Proofs.Editor.Versions
import ReleaseLog.Proofs.Exit
import ReleaseLog.Proofs.Grouping
import ReleaseLog.Proofs.Listing
import ReleaseLog.Proofs.Mending
import ReleaseLog.Proofs.Preamble
import ReleaseLog.Proofs.Precedence
import ReleaseLog.Proofs.Selection
import ReleaseLog.Proofs.Text.Layout
import ReleaseLog.Proofs.Headings
import ReleaseLog.Proofs.Wording
import ReleaseLog.Proofs.Text.Malformed
import ReleaseLog.Proofs.Text.Pieces
import ReleaseLog.Proofs.Printing
import ReleaseLog.Proofs.Text.Garbled
import ReleaseLog.Proofs.Watching.Replacement
import ReleaseLog.Proofs.Watching.Batches
