import CTree.Main
import CTree.Proofs.PatternWidth
import CTree.Proofs.GapStructure
import CTree.Proofs.PatternLocality
import CTree.Proofs.LiteralText
import CTree.Proofs.TokenText
import CTree.Proofs.TokenBoundary
import CTree.Proofs.LoneToken
import CTree.Proofs.GapChange
import CTree.Proofs.GrammarShape
import CTree.Proofs.GrammarEdges
import CTree.Proofs.NodeSpans
import CTree.Proofs.RoseTree
import CTree.Proofs.Adequacy
import CTree.Proofs.LosslessParse
import CTree.Proofs.Neighbours
import CTree.Proofs.WordRow
import CTree.Proofs.TokenTrials
import CTree.Proofs.FurthestFailure
import CTree.Proofs.LayoutSimulation
import CTree.Proofs.LayoutIndependence
import CTree.Proofs.LineEndings
import CTree.Proofs.RowChange
import CTree.Proofs.CommentMarks
import CTree.Proofs.FaultPlace
import CTree.Proofs.ErrorLocation
import CTree.Proofs.RuleLanguage
import CTree.Proofs.NodePlaces
import CTree.Proofs.NearestIf
import CTree.Proofs.TypeNames
import CTree.Proofs.UnsplitWords
import CTree.Proofs.ReservedWords
import CTree.Proofs.DirectiveLines
import CTree.Proofs.BracketLevel
import CTree.Proofs.OuterMarks
import CTree.Proofs.LeadingTokens
import CTree.Proofs.FramedText
import CTree.Proofs.ParenthesisedOperand
import CTree.Proofs.EmbeddedExpression
import CTree.Proofs.SizeofOperand
import CTree.Proofs.TreeConversion
import CTree.Proofs.TreeWalk
import CTree.Proofs.TreeReading
import CTree.Proofs.JsonReading
import CTree.Proofs.DocumentRoundTrip
import CTree.Proofs.DocumentLayouts
import CTree.Proofs.WrittenDocument
import CTree.Proofs.DecodedLabels
import CTree.Proofs.StorePaths
import CTree.Proofs.FileReplacement
import CTree.Proofs.FixtureFiles
import CTree.Proofs.FixtureRun
import CTree.Proofs.BlessingConvergence
import CTree.Proofs.FixtureComparison
import CTree.Proofs.LineRuns
import CTree.Proofs.ReportText
import CTree.Proofs.DocumentLines
import CTree.Proofs.FailureReport
import CTree.Proofs.PathOrder
import CTree.Proofs.Discovery
import CTree.Proofs.FixtureErrors
import CTree.Proofs.RunReport
import CTree.Proofs.DeclarationExtent
import CTree.Proofs.BlockStatement
import CTree.Proofs.BlankLine
import CTree.Proofs.SourceAppend
import CTree.Proofs.MaximalSkip
import CTree.Proofs.OpenCalls
import CTree.Proofs.LongestMatch
import CTree.Proofs.LongestNumeral
import CTree.Proofs.LongestLiteral
