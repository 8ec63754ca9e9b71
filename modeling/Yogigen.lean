import Yogigen.Supply
import Yogigen.Transition
import Yogigen.Numeral
import Yogigen.Printf
import Yogigen.SqlText
import Yogigen.HtmlText
import Yogigen.Bstring
import Yogigen.Queries
import Yogigen.Yogidb
import Yogigen.Accounting
import Yogigen.ConnLimit
import Yogigen.Notifier
import Yogigen.Permalink
import Yogigen.Links
import Yogigen.Pages
import Yogigen.Format
import Yogigen.Selection
import Yogigen.Choices
import Yogigen.Substitution
import Yogigen.Generate
import Yogigen.Calls
import Yogigen.Definedness
import Yogigen.Capitals
import Yogigen.Scans
import Yogigen.Slots
import Yogigen.Filling
import Yogigen.Loading
import Yogigen.Articles
import Yogigen.AttributeText
import Yogigen.GenPage
import Yogigen.Outcomes
import Yogigen.Delivery
import Yogigen.UniqueScan
import Yogigen.Lookups
import Yogigen.UrlDecode
import Yogigen.Handlers
import Yogigen.Closing
import Yogigen.Buffers
import Yogigen.Instr
import Yogigen.Replace
import Yogigen.Growing
import Yogigen.Composing
import Yogigen.Edits
import Yogigen.Casts
import Yogigen.Phrases
import Yogigen.Sharing
import Yogigen.Routes
import Yogigen.Serving
import Yogigen.Following
import Yogigen.Reorder
import Yogigen.RowOrder
import Yogigen.Process
import Yogigen.Handling
import Yogigen.Lifecycle
import Yogigen.Furnished
import Yogigen.Shipped
import Yogigen.ShippedLinks
