import Wikitext.AltFilling
import Wikitext.AltInsertion
import Wikitext.Caption
import Wikitext.Character.Digit
import Wikitext.Character.RangeTable
import Wikitext.Character.WhiteSpace
import Wikitext.Character.Word
import Wikitext.Cluster.BreakClass
import Wikitext.Cluster.Cell
import Wikitext.Command.Arguments
import Wikitext.Command.Run
import Wikitext.Command.Style
import Wikitext.Command.World
import Wikitext.Document
import Wikitext.Failure
import Wikitext.FileTree
import Wikitext.ImageInsertion
import Wikitext.Json
import Wikitext.LeadingBlock
import Wikitext.Lines.Diff
import Wikitext.Lines.Script
import Wikitext.Link.AltText
import Wikitext.Link.Media
import Wikitext.Link.Outermost
import Wikitext.Main
import Wikitext.Marker.Lexeme
import Wikitext.Marker.Nesting
import Wikitext.Marker.Step
import Wikitext.NameTable
import Wikitext.Proofs.AliasWidening
import Wikitext.Proofs.AltFilling
import Wikitext.Proofs.AltPlacing
import Wikitext.Proofs.AltSearch
import Wikitext.Proofs.ArgumentReading
import Wikitext.Proofs.ArticleReading
import Wikitext.Proofs.BestContext
import Wikitext.Proofs.CaptionAcceptance
import Wikitext.Proofs.CaptionKeeping
import Wikitext.Proofs.CaptionParams
import Wikitext.Proofs.CommandEffects
import Wikitext.Proofs.CommentEnd
import Wikitext.Proofs.ContextWindow
import Wikitext.Proofs.ContextWords
import Wikitext.Proofs.Edits
import Wikitext.Proofs.FileWriting
import Wikitext.Proofs.ImageInsertion
import Wikitext.Proofs.ImageLines
import Wikitext.Proofs.ImageStacking
import Wikitext.Proofs.LeadingBlock
import Wikitext.Proofs.LeadingRun
import Wikitext.Proofs.Lexing
import Wikitext.Proofs.LinkAlone
import Wikitext.Proofs.LinkEditing
import Wikitext.Proofs.LinkReport
import Wikitext.Proofs.LinkSegments
import Wikitext.Proofs.MediaLinks
import Wikitext.Proofs.NameFlags
import Wikitext.Proofs.NestingLimit
import Wikitext.Proofs.Occurrences
import Wikitext.Proofs.Offsets
import Wikitext.Proofs.OptionParams
import Wikitext.Proofs.OuterLinks
import Wikitext.Proofs.PatternMatching
import Wikitext.Proofs.Requests
import Wikitext.Proofs.Restarting
import Wikitext.Proofs.Scanning
import Wikitext.Proofs.Segmentation
import Wikitext.Proofs.SelectionSpan
import Wikitext.Proofs.ShownText
import Wikitext.Proofs.StepRanges
import Wikitext.Proofs.TableUnion
import Wikitext.Proofs.Tiling
import Wikitext.Proofs.Tree
import Wikitext.Proofs.TreeLinks
import Wikitext.Proofs.TreeRendering
import Wikitext.Proofs.WordPositions
import Wikitext.Rendering
import Wikitext.Selection.Context
import Wikitext.Selection.Gap
import Wikitext.Selection.Locate
import Wikitext.Selection.Occurrence
import Wikitext.Settings
import Wikitext.Text
import Wikitext.Toml.Document
import Wikitext.Toml.Scalar
import Wikitext.Toml.Scan
import Wikitext.Toml.Value
import Wikitext.Unfold
