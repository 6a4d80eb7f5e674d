import WidgetStyle.Engine
import WidgetStyle.Loading
import WidgetStyle.Property.BaseSet
import WidgetStyle.Proofs.Selector.Modes
import WidgetStyle.Proofs.Selector.Locality
import WidgetStyle.Proofs.Sheet.Candidates
import WidgetStyle.Proofs.Sheet.Index
import WidgetStyle.Proofs.Sheet.Operations
import WidgetStyle.Proofs.Tree.Lineage
import WidgetStyle.Proofs.Tree.Forest
import WidgetStyle.Proofs.Tree.Edits
import WidgetStyle.Proofs.Engine.Session
import WidgetStyle.Proofs.Engine.Coherence
import WidgetStyle.Proofs.Engine.Changes
import WidgetStyle.Proofs.Engine.Refresh
import WidgetStyle.Proofs.Engine.Answers
import WidgetStyle.Proofs.Cascade.Requests
import WidgetStyle.Proofs.Engine.Baselines
import WidgetStyle.Proofs.Engine.Reports
import WidgetStyle.Proofs.Tree.Siblings
import WidgetStyle.Proofs.Selector.Search
import WidgetStyle.Proofs.Entries
import WidgetStyle.Proofs.Sheet.Blocks
import WidgetStyle.Proofs.Sheet.Rules
import WidgetStyle.Proofs.Selector.Tiers
import WidgetStyle.Proofs.Sheet.Headings
import WidgetStyle.Proofs.Cascade.Highest
import WidgetStyle.Proofs.Cascade.Contest
import WidgetStyle.Proofs.Cascade.Layers
import WidgetStyle.Proofs.Cascade.Inline
import WidgetStyle.Proofs.Cascade.Unknown
import WidgetStyle.Proofs.Cascade.Importance
import WidgetStyle.Proofs.Cascade.Combination
import WidgetStyle.Proofs.Source.Leading
import WidgetStyle.Proofs.Source.Boundary
import WidgetStyle.Proofs.Sheet.Concatenation
import WidgetStyle.Proofs.Enumeration
import WidgetStyle.Proofs.Timing.Permutation
import WidgetStyle.Proofs.Sheet.Enumeration
import WidgetStyle.Proofs.Variable.Lookup
import WidgetStyle.Proofs.Cascade.Enumeration
import WidgetStyle.Proofs.Property.Registration
import WidgetStyle.Proofs.Cascade.Values
import WidgetStyle.Proofs.Engine.Inheritance
import WidgetStyle.Proofs.Variable.Reference
import WidgetStyle.Proofs.Engine.Scopes
import WidgetStyle.Proofs.Engine.Reach
import WidgetStyle.Proofs.Sheet.Removal
import WidgetStyle.Proofs.Value.Pieces
import WidgetStyle.Proofs.Sheet.Normalisation
import WidgetStyle.Proofs.Selector.NormalText
import WidgetStyle.Proofs.Selector.Grammar
import WidgetStyle.Proofs.Variable.Calls
import WidgetStyle.Proofs.Variable.Shortcut
import WidgetStyle.Proofs.Variable.Scanning
import WidgetStyle.Proofs.Variable.Fallbacks
import WidgetStyle.Proofs.Variable.Quotations
import WidgetStyle.Proofs.Variable.Termination
import WidgetStyle.Proofs.Variable.Failures
import WidgetStyle.Proofs.Selector.Attributes
import WidgetStyle.Proofs.Selector.Dropped
import WidgetStyle.Proofs.Selector.Weakening
import WidgetStyle.Proofs.Sheet.Versions
import WidgetStyle.Proofs.Engine.Editions
import WidgetStyle.Proofs.Sheet.Marking
import WidgetStyle.Proofs.Source.Endings
import WidgetStyle.Proofs.Source.Neighbours
import WidgetStyle.Proofs.Source.Declared
import WidgetStyle.Proofs.Source.Comments
import WidgetStyle.Proofs.Source.Importance
import WidgetStyle.Proofs.Double.Values
import WidgetStyle.Proofs.Double.Rounding
import WidgetStyle.Proofs.Double.Unit
import WidgetStyle.Proofs.Sheet.Frames
import WidgetStyle.Proofs.Sheet.FrameSources
import WidgetStyle.Proofs.Value.Balance
import WidgetStyle.Proofs.Timing.Names
import WidgetStyle.Proofs.Source.QuotedNames
import WidgetStyle.Proofs.Engine.Bindings
import WidgetStyle.Proofs.Value.Words
import WidgetStyle.Proofs.Timing.WordOrder
import WidgetStyle.Proofs.Timing.Cycling
import WidgetStyle.Proofs.Property.Resolution
import WidgetStyle.Proofs.Double.Bits
import WidgetStyle.Proofs.Double.Fields
import WidgetStyle.Proofs.Decimal.Printing
import WidgetStyle.Proofs.Timing.RoundTrip
import WidgetStyle.Proofs.Property.Aliases
import WidgetStyle.Proofs.Sheet.Merging
import WidgetStyle.Proofs.Tree.Moves
import WidgetStyle.Proofs.Tree.Growth
import WidgetStyle.Proofs.Selector.Spacing
import WidgetStyle.Proofs.Sheet.Selectors
import WidgetStyle.Proofs.Selector.Counting
import WidgetStyle.Proofs.Value.Comments
import WidgetStyle.Proofs.Value.Cuts
import WidgetStyle.Proofs.Variable.Offsets
import WidgetStyle.Proofs.Selector.Cursor
import WidgetStyle.Proofs.Selector.WholeCharacters
