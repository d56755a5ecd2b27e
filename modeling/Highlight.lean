import Highlight.Display
import Highlight.Session
import Highlight.Proofs.Cache.Eviction
import Highlight.Proofs.Diff.Cursors
import Highlight.Proofs.Diff.Insertions
import Highlight.Proofs.Diff.LocalEdit
import Highlight.Proofs.Document.Rope
import Highlight.Proofs.Html.Search
import Highlight.Proofs.Html.StartTag
import Highlight.Proofs.JavaScript.Operators
import Highlight.Proofs.Json.Between
import Highlight.Proofs.Json.Reading
import Highlight.Proofs.Language.Partition
import Highlight.Proofs.Language.QuotedStrings
import Highlight.Proofs.Renderer.Capacity
import Highlight.Proofs.Renderer.Counts
import Highlight.Proofs.Renderer.Following
import Highlight.Proofs.Renderer.Forcing
import Highlight.Proofs.Renderer.Lifetime
import Highlight.Proofs.Renderer.Repetition
import Highlight.Proofs.Renderer.Reuse
import Highlight.Proofs.Renderer.Soundness
import Highlight.Proofs.Session.Idle
import Highlight.Proofs.Session.Rendered
import Highlight.Proofs.Session.Requests
import Highlight.Proofs.Session.Selection
import Highlight.Proofs.Session.Teardown
import Highlight.Proofs.Language.Comments
import Highlight.Proofs.Css.Declarations
import Highlight.Proofs.JavaScript.Template
import Highlight.Proofs.JavaScript.Nesting
import Highlight.Proofs.JavaScript.Placeholder
import Highlight.Proofs.JavaScript.Words
import Highlight.Proofs.JavaScript.Numbers
import Highlight.Proofs.Json.Numbers
import Highlight.Proofs.Css.Comparators
import Highlight.Proofs.Scanner.Cursor
