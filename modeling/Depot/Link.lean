import Depot.Path

/-!
# Links to bundles

A bundle is fetched from a file on disk or from a URL.

This is `DownloadLink`, with its text.
-/

namespace Depot

/-- Where a bundle can be fetched from. -/
inductive Link where
  | url (text : String)
  | file (path : Path)
  deriving DecidableEq

/-- The link as text. -/
def Link.display : Link → String
  | .url text => text
  | .file path => path.display

end Depot
