import NamespaceCatalog.Catalog.Basic
import NamespaceCatalog.Table.Source

/-!
# Catalogs with a source of their own

A catalog that is not part of anything larger has its own coordinator and its own source of tables,
in memory or in a directory.
-/

namespace NamespaceCatalog

/-- The world of a catalog that has its own source of tables. -/
abbrev Home := World (Backing Source)

namespace Home

/-- Gets a table from the source. -/
def fetch (name : String) (w : Home) : Except Error TableId × Home :=
  let (r, source, site) := w.extra.rest.get w.site name
  (r, { w with site, extra := { w.extra with rest := source } })

/-- A catalog with its own source of tables. -/
def catalog (libs : Format → DataFormat) (c : Config) : Catalog Source where
  config := c
  libraries := libs
  fetch := fetch
  policy e n w := (c.delay? e n, w)
  meanwhile := .quiet

/-- The home of a catalog whose table is in memory. -/
def inMemory (c : Config) : Home := World.new Site.empty (Catalog.backing c Source.inMemory)

/-- Opens the home of a catalog whose table is in a directory. -/
def openAt (site : Site) (path : Path) (c : Config) : Except Error Home × Site :=
  match Source.inDirectory site path c.sync with
  | (.error e, site) => (.error e, site)
  | (.ok source, site) => (.ok (World.new site (Catalog.backing c source)), site)

/-- Closes a home, and leaves the site. -/
def close (h : Home) : Site := h.extra.rest.close h.site

end Home

end NamespaceCatalog
