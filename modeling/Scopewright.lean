import Scopewright.Payload.Summary
import Scopewright.Session.Basic
import Scopewright.Proofs.Registry.Visibility
import Scopewright.Proofs.Table
import Scopewright.Proofs.Registry.Indexing
import Scopewright.Proofs.Registry.History
import Scopewright.Proofs.Text.Order
import Scopewright.Proofs.Registry.Multiplicity
import Scopewright.Engine.Chain
import Scopewright.Proofs.Engine.Chain
import Scopewright.Proofs.Engine.Order
import Scopewright.Proofs.Engine.Removal
import Scopewright.Proofs.Text.Class
import Scopewright.Proofs.Text.Split
import Scopewright.Proofs.Block.Row
import Scopewright.Proofs.Block.Tree
import Scopewright.Proofs.Block.Spot
import Scopewright.Proofs.Block.Climb
import Scopewright.Proofs.Block.Nesting
import Scopewright.Proofs.Block.Resolve
import Scopewright.Proofs.Block.Exact
import Scopewright.Proofs.Markup.Reference
import Scopewright.Proofs.Cursor.Token
import Scopewright.Proofs.Cursor.Source
import Scopewright.Proofs.Session.Course
import Scopewright.Proofs.Session.Shown
import Scopewright.Proofs.Completion.Labels
import Scopewright.Proofs.Validation.Checks
import Scopewright.Proofs.Completion.Offered
import Scopewright.Proofs.Registry.Preview
import Scopewright.Proofs.SyntaxTest.Recognition
import Scopewright.Proofs.SyntaxTest.Lines
import Scopewright.Proofs.Validation.Assertion
import Scopewright.Proofs.Validation.Returns
import Scopewright.Proofs.Markup.Construct
import Scopewright.Proofs.Markup.Growth
import Scopewright.Proofs.Cursor.Frames
import Scopewright.Proofs.Document.Plist
import Scopewright.Proofs.Cursor.Plist
import Scopewright.Proofs.Json.Readback
import Scopewright.Proofs.Registry.Cycles
import Scopewright.Proofs.Registry.Warnings
import Scopewright.Proofs.Text.Words
import Scopewright.Proofs.Registry.Ranking
import Scopewright.Proofs.Registry.Harvest
import Scopewright.Proofs.Registry.BaseScopes
import Scopewright.Proofs.Cursor.Returns
import Scopewright.Proofs.Block.Slot
import Scopewright.Proofs.Cursor.Compact
import Scopewright.Proofs.Cursor.FlowItem
import Scopewright.Proofs.Cursor.Inserted
import Scopewright.Proofs.Yaml.Lexing
import Scopewright.Proofs.Yaml.Entry
import Scopewright.Proofs.Yaml.CoreSchema
import Scopewright.Proofs.Completion.Scalar
import Scopewright.Proofs.Selector.Word
import Scopewright.Proofs.Json.Strings
import Scopewright.Proofs.Validation.Places
import Scopewright.Proofs.Validation.Walk
import Scopewright.Proofs.Validation.AssertionPlaces
import Scopewright.Proofs.Completion.Reference
import Scopewright.Proofs.SyntaxTest.Place
import Scopewright.Proofs.SyntaxTest.Completed
import Scopewright.Proofs.SyntaxTest.Covered
import Scopewright.Proofs.SyntaxTest.Suggested
import Scopewright.Proofs.SyntaxTest.Returns
import Scopewright.Proofs.SyntaxTest.Walk
import Scopewright.Proofs.SyntaxTest.Region
import Scopewright.Proofs.SyntaxTest.Aligned
import Scopewright.Proofs.Markup.Decoding
import Scopewright.Proofs.Cursor.Typed
import Scopewright.Proofs.Cursor.Siblings
import Scopewright.Proofs.Cursor.Keys
import Scopewright.Proofs.Completion.Ranking
import Scopewright.Proofs.Json.Verbatim
import Scopewright.Proofs.Completion.Replaced
import Scopewright.Proofs.Yaml.QuotedKey
import Scopewright.Proofs.Client.SortText
import Scopewright.Proofs.Document.Sequences
