import BlockLang.Main
import BlockLang.Proofs.Scope.Extension
import BlockLang.Proofs.Scope.Registration
import BlockLang.Proofs.Tree.Phrase
import BlockLang.Proofs.Tree.Words
import BlockLang.Proofs.Parser.Outcome
import BlockLang.Proofs.Parser.Conduct
import BlockLang.Proofs.Parser.Progress
import BlockLang.Proofs.Parser.Agreement
import BlockLang.Proofs.Parser.Recursion
import BlockLang.Proofs.Parser.Production
import BlockLang.Proofs.Parser.Acceptance
import BlockLang.Proofs.Parser.Passage
import BlockLang.Proofs.Parser.Numbering
import BlockLang.Proofs.Parser.Words
import BlockLang.Proofs.Scope.Scoped
import BlockLang.Proofs.Parser.Scoping
import BlockLang.Proofs.Eval.Outcome
import BlockLang.Proofs.Eval.Safety
import BlockLang.Proofs.Eval.Soundness
import BlockLang.Proofs.Eval.Visits
import BlockLang.Proofs.Scope.Precedence
import BlockLang.Proofs.Resolution
import BlockLang.Proofs.RunSafety
import BlockLang.Proofs.Isolation
import BlockLang.Proofs.Rendering
import BlockLang.Proofs.Signatures
import BlockLang.Proofs.Eval.Stops
import BlockLang.Proofs.Replay
import BlockLang.Proofs.BodyNumbers
import BlockLang.Proofs.WordsKept
import BlockLang.Proofs.Totality
import BlockLang.Proofs.Tree.Stratified
import BlockLang.Proofs.Tree.Lines
import BlockLang.Proofs.Parser.Stratification
import BlockLang.Proofs.Parser.Completeness
import BlockLang.Proofs.PrecedenceGrammar
import BlockLang.Proofs.Parser.Layout
import BlockLang.Proofs.Eval.Layout
import BlockLang.Proofs.LayoutIrrelevance
import BlockLang.Proofs.Decimal.Rounding
import BlockLang.Proofs.Decimal.ReadBack
import BlockLang.Proofs.Token.Pieces
import BlockLang.Proofs.Token.Legible
import BlockLang.Proofs.Rendering.Words
import BlockLang.Proofs.ExpressionRoundTrip
import BlockLang.Proofs.Rendering.Image
import BlockLang.Proofs.TokenImage
import BlockLang.Proofs.Eval.Interpretation
import BlockLang.Proofs.Eval.Trace
import BlockLang.Proofs.Eval.Fuel
import BlockLang.Proofs.EvaluationDiscipline
import BlockLang.Proofs.LoopLimit
import BlockLang.Proofs.Scope.Operation
import BlockLang.Proofs.Arrangement
import BlockLang.Proofs.NameMap
import BlockLang.Proofs.ShownLines
import BlockLang.Proofs.Token.Segment
import BlockLang.Proofs.LineBreaks
import BlockLang.Proofs.LongestMatch
import BlockLang.Proofs.Positions
import BlockLang.Proofs.Eval.Stateless
import BlockLang.Proofs.ExactIntegers
import BlockLang.Proofs.ErrorRecovery
import BlockLang.Proofs.FreshFrames
import BlockLang.Proofs.OverloadSelection
import BlockLang.Proofs.Termination
import BlockLang.Proofs.StatementsReadBack
import BlockLang.Proofs.Parser.Spelling
import BlockLang.Proofs.Parser.Nesting
import BlockLang.Proofs.RejectedBlocks
import BlockLang.Proofs.Parser.Tolerance
import BlockLang.Proofs.Parser.ItemTolerance
import BlockLang.Proofs.Parser.Absorption
import BlockLang.Proofs.OptionalSemicolons
import BlockLang.Proofs.BodyLookahead
