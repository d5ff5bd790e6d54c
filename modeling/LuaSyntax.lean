import LuaSyntax.Parse
import LuaSyntax.Proofs.BlockEnd
import LuaSyntax.Proofs.ChoiceReports
import LuaSyntax.Proofs.CleanPrefix
import LuaSyntax.Proofs.DialectExtension
import LuaSyntax.Proofs.EditScript
import LuaSyntax.Proofs.ExprExcerpt
import LuaSyntax.Proofs.ExprLanguage
import LuaSyntax.Proofs.Irrelevance
import LuaSyntax.Proofs.LabelNames
import LuaSyntax.Proofs.LeastRepair
import LuaSyntax.Proofs.LevelSkip
import LuaSyntax.Proofs.LineBreak
import LuaSyntax.Proofs.Lookahead
import LuaSyntax.Proofs.MalformedNumbers
import LuaSyntax.Proofs.NestingBound
import LuaSyntax.Proofs.NestingLimit
import LuaSyntax.Proofs.NodeSpans
import LuaSyntax.Proofs.OperatorTrees
import LuaSyntax.Proofs.Places
import LuaSyntax.Proofs.Progress
import LuaSyntax.Proofs.Recovery
import LuaSyntax.Proofs.Report.Excerpt
import LuaSyntax.Proofs.RoundTrip
import LuaSyntax.Proofs.SuffixPolicies
import LuaSyntax.Proofs.TargetNotes
import LuaSyntax.Proofs.Tiling
import LuaSyntax.Proofs.TokenEnds
import LuaSyntax.Proofs.TokenLines
import LuaSyntax.Proofs.Translation
import LuaSyntax.Proofs.Tree.Erased
import LuaSyntax.Proofs.Truncation
import LuaSyntax.Proofs.WellFormed
import LuaSyntax.Text.Padding
import LuaSyntax.Tree.Layout
import LuaSyntax.Tree.Same
