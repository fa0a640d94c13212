import DataBound.Main
import DataBound.Proofs.Path.Reading
import DataBound.Proofs.Segment
import DataBound.Proofs.Action
import DataBound.Proofs.Resolution
import DataBound.Proofs.Binder.Normalization
import DataBound.Proofs.Binder.Reachable
import DataBound.Proofs.Updates
import DataBound.Proofs.Binder.Writes
import DataBound.Proofs.Binder.Query
import DataBound.Proofs.Cache.Queue
import DataBound.Proofs.Document
import DataBound.Proofs.Document.Laws
import DataBound.Proofs.Document.Skipped
import DataBound.Proofs.Binder.Defaults
import DataBound.Proofs.Binder.Records
import DataBound.Proofs.Resolution.Misses
import DataBound.Proofs.Resolution.Prefixes
import DataBound.Proofs.Binder.History
import DataBound.Proofs.Binding.Identity
import DataBound.Proofs.Binder.Identity
import DataBound.Proofs.Binder.Shortcut
import DataBound.Proofs.View.Arena
import DataBound.Proofs.View.Walk
import DataBound.Proofs.View.Ensures
import DataBound.Proofs.View.Extension
import DataBound.Proofs.View.Building
import DataBound.Proofs.Binder.ReadOnly
import DataBound.Proofs.Binder.Forgetting
import DataBound.Proofs.View.Linking
import DataBound.Proofs.View.Parts
import DataBound.Proofs.View.Leaves
import DataBound.Proofs.View.Rebuild
import DataBound.Proofs.View.Lossless
import DataBound.Proofs.Binder.Misses
import DataBound.Proofs.View.Outline
import DataBound.Proofs.View.Follows
import DataBound.Proofs.View.Drawing
import DataBound.Proofs.View.Standard
import DataBound.Proofs.View.Termination
import DataBound.Proofs.View.Admission
import DataBound.Proofs.View.Secrecy
import DataBound.Proofs.Binder.Sealing
import DataBound.Proofs.View.Within
import DataBound.Proofs.Text.Occurrence
import DataBound.Proofs.Json.Number
import DataBound.Proofs.Json.Replacing
import DataBound.Proofs.Json.Rereading
import DataBound.Proofs.View.Copies
import DataBound.Proofs.View.Produces
import DataBound.Proofs.View.Nesting
import DataBound.Proofs.View.Expansion
import DataBound.Proofs.Binder.Failures
import DataBound.Proofs.Path.Faults
import DataBound.Proofs.Json.Joining
import DataBound.Proofs.View.Substitution
import DataBound.Proofs.DataPath
import DataBound.Proofs.Document.Apart
import DataBound.Proofs.Binder.Spelling
import DataBound.Proofs.Binder.Following
import DataBound.Proofs.Binder.Splicing
import DataBound.Proofs.Binder.References
import DataBound.Proofs.Binder.Questions
import DataBound.Proofs.View.Plain
import DataBound.Proofs.View.Listing
import DataBound.Proofs.View.Inlined
import DataBound.Proofs.View.Inlining
import DataBound.Proofs.DataPath.Dotted
import DataBound.Proofs.Updates.History
import DataBound.Proofs.View.Preorder
import DataBound.Proofs.View.Vetoes
import DataBound.Proofs.Scalar
