import MarkupHighlight.Text.Basic
import MarkupHighlight.Script.Scan
import MarkupHighlight.Script.Escape
import MarkupHighlight.Script.Expression
import MarkupHighlight.Markup.Node
import MarkupHighlight.Markup.Error
import MarkupHighlight.Markup.Attribute
import MarkupHighlight.Markup.Token
import MarkupHighlight.Markup.Document
import MarkupHighlight.Markup.Walk
import MarkupHighlight.Text.Frame
import MarkupHighlight.SourceMap.Basic
import MarkupHighlight.Language.Annotation
import MarkupHighlight.Format.Formatter
import MarkupHighlight.Path
import MarkupHighlight.Block.Transform
import MarkupHighlight.Diagnostic
import MarkupHighlight.Filter
import MarkupHighlight.Config
import MarkupHighlight.Diff.Lines
import MarkupHighlight.Preprocessor
import MarkupHighlight.Main
import MarkupHighlight.Proofs.Preprocessor.Accounting
import MarkupHighlight.Proofs.Preprocessor.Idempotence
import MarkupHighlight.Proofs.Preprocessor.Concatenation
import MarkupHighlight.Proofs.Preprocessor.Overlap
import MarkupHighlight.Proofs.Block.ReadBack
import MarkupHighlight.Proofs.SourceMap.Exactness
import MarkupHighlight.Proofs.Markup.Printing
import MarkupHighlight.Proofs.Markup.Spans
import MarkupHighlight.Proofs.Block.Spelled
import MarkupHighlight.Proofs.Edit.Recording
import MarkupHighlight.Proofs.Preprocessor.Spelled
import MarkupHighlight.Proofs.Preprocessor.Respelling
import MarkupHighlight.Proofs.Markup.Component
import MarkupHighlight.Proofs.Highlight.Coverage
import MarkupHighlight.Proofs.Command.SourceMaps
import MarkupHighlight.Proofs.Format.VisibleText
import MarkupHighlight.Proofs.Markup.Expressions
import MarkupHighlight.Proofs.Preprocessor.EmptyCode
import MarkupHighlight.Proofs.Script.BraceMatching
import MarkupHighlight.Proofs.Script.Decoding
import MarkupHighlight.Proofs.Block.Evaluation
import MarkupHighlight.Proofs.Script.Substitutions
import MarkupHighlight.Proofs.Bytes.Documents
import MarkupHighlight.Proofs.SourceMap.Points
import MarkupHighlight.Proofs.SourceMap.Unbounded
import MarkupHighlight.Proofs.Markup.RawText
import MarkupHighlight.Proofs.Markup.Failures
import MarkupHighlight.Proofs.Edit.Correspondence
import MarkupHighlight.Proofs.Format.Invariance
import MarkupHighlight.Proofs.Format.Respacing
import MarkupHighlight.Proofs.Bytes.Frames
import MarkupHighlight.Proofs.Highlight.Detection
import MarkupHighlight.Proofs.Preprocessor.Calls
import MarkupHighlight.Proofs.Format.Refusal
