import PugPretty.Format
import PugPretty.Options.Json
import PugPretty.Pattern.Reader
import PugPretty.Token.Json
import PugPretty.Proofs.Parts
import PugPretty.Proofs.Progress
import PugPretty.Proofs.Step
import PugPretty.Proofs.Conversation
import PugPretty.Proofs.Sketch
import PugPretty.Proofs.Statements
import PugPretty.Proofs.Outcome
import PugPretty.Proofs.LayoutFreedom
import PugPretty.Proofs.AttributeText
import PugPretty.Proofs.ElementHead
import PugPretty.Proofs.QuotedValues
import PugPretty.Proofs.Growth
import PugPretty.Proofs.WaitingClasses
import PugPretty.Proofs.LeadingShorthand
import PugPretty.Proofs.FinishedLines
import PugPretty.Proofs.LineStarts
import PugPretty.Proofs.Indentation
import PugPretty.Proofs.BrokenLists
import PugPretty.Proofs.AttributeLists
import PugPretty.Proofs.ClassAttributes
import PugPretty.Proofs.TextBlocks
import PugPretty.Proofs.InertText
import PugPretty.Proofs.InlineContent
import PugPretty.Proofs.Literals
import PugPretty.Proofs.FilterLists
import PugPretty.Proofs.SideBySide
import PugPretty.Proofs.StreamStart
import PugPretty.Proofs.SteadyPlaces
import PugPretty.Proofs.SortedRuns
import PugPretty.Proofs.FinishedText
import PugPretty.Proofs.StreamEnd
import PugPretty.Proofs.TokenJson
import PugPretty.Proofs.NegatedConditions
import PugPretty.Proofs.WrapForecast
import PugPretty.Proofs.ShorthandForecast
import PugPretty.Proofs.ImpliedDiv
import PugPretty.Proofs.CanonicalDiv
import PugPretty.Proofs.Columns
import PugPretty.Proofs.ForeseenWidths
import PugPretty.Proofs.UnbrokenLists
import PugPretty.Proofs.NameOrder
import PugPretty.Proofs.QuoteStyles
import PugPretty.Proofs.MustacheSpans
import PugPretty.Proofs.SettledCode
import PugPretty.Proofs.InlineHtml
import PugPretty.Proofs.OptionsJson
import PugPretty.Proofs.InlineSpacing
import PugPretty.Proofs.AnswerLines
import PugPretty.Proofs.JoinedLines
import PugPretty.Proofs.Collapsing
import PugPretty.Proofs.CollapsedCode
import PugPretty.Proofs.ClassSpans
import PugPretty.Proofs.BlankRuns
import PugPretty.Proofs.CommentBodies
import PugPretty.Proofs.GuardedText
