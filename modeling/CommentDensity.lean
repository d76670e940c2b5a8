import CommentDensity.Main
import CommentDensity.Proofs.Report.Arrangement
import CommentDensity.Proofs.Comment.Position
import CommentDensity.Proofs.Comment.Document
import CommentDensity.Proofs.Command.Jobs
import CommentDensity.Proofs.Survey.Completion
import CommentDensity.Proofs.Survey.Pruning
import CommentDensity.Proofs.Survey.Rendering
import CommentDensity.Proofs.Survey.Subtrees
import CommentDensity.Proofs.FileTree.Edit
import CommentDensity.Proofs.FileTree.Reordering
import CommentDensity.Proofs.Survey.ListingOrder
import CommentDensity.Proofs.Toml.Tables
import CommentDensity.Proofs.JobFile.RoundTrip
import CommentDensity.Proofs.Comment.Span
import CommentDensity.Proofs.Comment.BlockRun
import CommentDensity.Proofs.Report.Reading
import CommentDensity.Proofs.Command.ReadBack
import CommentDensity.Proofs.Text.Newline
import CommentDensity.Proofs.Comment.CarriageReturn
import CommentDensity.Proofs.Survey.Content
import CommentDensity.Proofs.Survey.Comparison
import CommentDensity.Proofs.Number.RatioText
import CommentDensity.Proofs.Report.Hundredths
import CommentDensity.Proofs.Survey.Kinds
import CommentDensity.Proofs.Command.Choice
import CommentDensity.Proofs.Regrouping
import CommentDensity.Proofs.Comment.Unclosed
