import Depot.Lifetime

/-!
# Settings of a storage

The settings name where resources are stored and how long the links to bundles last. This is
`StorageConfig` (the specification, section 10.4).
-/

namespace Depot

/-- The settings of a storage. -/
structure Config where
  uri : String
  linkLifetime : Lifetime
  deriving DecidableEq, Repr

/-- The settings for a URI, with links of the standard lifetime. -/
def Config.ofUri (uri : String) : Config :=
  ⟨uri, .standard⟩

end Depot
