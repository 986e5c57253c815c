import ClientBuild.Json.Printer
import ClientBuild.Schema.Comments
import ClientBuild.Schema.Response
import ClientBuild.Schema.Write
import ClientBuild.Store
import ClientBuild.Target

/-!
# The schema and its cache

The entities of the last answer that had any are kept in a file beside the declarations, so that
declarations can be generated while the backend is down.  The cross-platform target keeps
entities in full, the others their short form.
-/

namespace ClientBuild

/-- Keep the entities that a target uses, with search groups. -/
def normalize (t : Target) (es : List Entity) : List Entity :=
  (es.filter fun e =>
    !t.isClient || Text.startsWith "/app".toList e.route.toList ||
      Text.startsWith "/admin".toList e.route.toList).map Entity.fillSearch

namespace Cache

/-- The name of the cache file in the output directory. -/
def fileName : String := "eps.json"

/-- The text of the cache of a list of entities. -/
def content (t : Target) (es : List Entity) : String :=
  if t.isCrossPlatform then (Entity.listToJson es).compact
  else (Json.array (es.map Entity.summaryJson)).compact

/-- The entities that a cache text holds; a text that does not fit holds none. -/
def parse (text : String) : List Entity :=
  (Entity.parseList? (Comments.strip text.toList)).getD []

/-- The entities of a cache file; a missing file has none. -/
def read (s : Store) (path : String) : List Entity :=
  match s.read? path with
  | some text => parse text
  | none => []

/-- Write the cache of a list of entities if it changed.  An empty list is never written. -/
def write (s : Store) (path : String) (t : Target) (es : List Entity) :
    Store × Except Failure Bool :=
  if es.isEmpty then (s, .ok false) else s.writeIfChanged path (content t es)

end Cache

/-- Where a list of entities came from. -/
inductive Origin where
  | remote
  | cache
deriving DecidableEq, Repr, Inhabited

namespace Origin

/-- The name of an origin. -/
def name : Origin → String
  | remote => "remote"
  | cache => "cache"

end Origin

/-- The entities to generate from: those of a usable answer, also when it has none, or else the
cached ones. -/
def fetchSchema (t : Target) (answer : Option Json) (cached : List Entity) :
    List Entity × Origin :=
  match answer.bind schemaOfAnswer? with
  | some es => (normalize t es, .remote)
  | none => (normalize t cached, .cache)

end ClientBuild
