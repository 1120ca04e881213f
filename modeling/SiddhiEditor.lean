import SiddhiEditor.Completion.Engine
import SiddhiEditor.Layout.Reindent
import SiddhiEditor.Layout.Setting
import SiddhiEditor.Tree.Markup
import SiddhiEditor.Proofs.Construction
import SiddhiEditor.Proofs.VisibleLeaves
import SiddhiEditor.Proofs.Answers
import SiddhiEditor.Proofs.Alike
import SiddhiEditor.Proofs.SharedStart
import SiddhiEditor.Proofs.Cursor
import SiddhiEditor.Proofs.Padding
import SiddhiEditor.Proofs.PaddedCompletion
import SiddhiEditor.Proofs.Reindentation
import SiddhiEditor.Proofs.Failures
import SiddhiEditor.Proofs.LexicalGrammar
import SiddhiEditor.Proofs.Idempotence
import SiddhiEditor.Proofs.DocumentEnd
import SiddhiEditor.Proofs.Matching
import SiddhiEditor.Proofs.TypedWord
import SiddhiEditor.Proofs.MarkupGrammar
import SiddhiEditor.Proofs.DecisionList
import SiddhiEditor.Proofs.CatalogOrder
import SiddhiEditor.Proofs.Resolution
import SiddhiEditor.Proofs.PaddedReferences
import SiddhiEditor.Proofs.PaddedCatalog
import SiddhiEditor.Proofs.LinePieces
import SiddhiEditor.Proofs.Narrowing
import SiddhiEditor.Proofs.KnownNames
import SiddhiEditor.Proofs.SelectedAttributes
import SiddhiEditor.Proofs.TokenBoundaries
import SiddhiEditor.Proofs.BackwardWalk
import SiddhiEditor.Proofs.OffsetLookup
import SiddhiEditor.Proofs.LineColumns
import SiddhiEditor.Proofs.Refusals
import SiddhiEditor.Proofs.TaggedNodes
import SiddhiEditor.Proofs.CatalogContents
import SiddhiEditor.Proofs.LeafSegments
import SiddhiEditor.Proofs.ByteMatching
import SiddhiEditor.Proofs.ClosedNodes
import SiddhiEditor.Proofs.Settings
