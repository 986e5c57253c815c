import ClientBuild.Json.Basic
import ClientBuild.Text.Search

/-!
# The schema of a backend

A backend describes itself as a list of entities.  An entity has a route, a name, methods under
its route and columns.  Keys that are not modelled are kept in `extra`, in their order.
-/

namespace ClientBuild

/-- The members of a JSON object that are not modelled. -/
abbrev Extra := List (String × Json)

/-- A field of an entity. -/
structure Column where
  propertyName : String := ""
  /-- The type of the column, which a mapping turns into the declared type. -/
  type : String := ""
  /-- The name of the column in the store; columns of one source are one field. -/
  source : String := ""
  comment : String := ""
  nullable : Bool := false
  extra : Extra := []
deriving Repr, Inhabited

/-- A parameter of a method. -/
structure Parameter where
  name : String := ""
  required : Bool := false
  description : Option String := none
  /-- The type of its schema. -/
  type : Option String := none
deriving DecidableEq, Repr, Inhabited

/-- A method of an entity. -/
structure Method where
  /-- The path of the method below the route of its entity. -/
  path : String := ""
  /-- The HTTP verb. -/
  method : String := ""
  name : Option String := none
  summary : Option String := none
  /-- The route that the method names itself. -/
  route : Option String := none
  tag : Option String := none
  parameters : List Parameter := []
  extra : Extra := []
deriving Repr, Inhabited

/-- The sources that a page query can be searched by.  Only strings name a source. -/
structure PageQuery where
  fieldEq : List Json := []
  fieldLike : List Json := []
  keyWordLikeFields : List Json := []
deriving Repr, Inhabited

/-- The columns that a page query can be searched by. -/
structure Search where
  fieldEq : List Column := []
  fieldLike : List Column := []
  keyWordLikeFields : List Column := []
deriving Repr, Inhabited

/-- A resource of the backend. -/
structure Entity where
  /-- The route of the entity. -/
  route : String := ""
  name : String := ""
  namespaceHint : String := ""
  module : Option String := none
  methods : List Method := []
  columns : List Column := []
  /-- Columns that only the page query answers. -/
  pageColumns : List Column := []
  pageQuery : Option PageQuery := none
  search : Option Search := none
  extra : Extra := []
deriving Repr, Inhabited

namespace Method

/-- The part of a path behind its last slash. -/
def lastSegment (path : String) : String :=
  String.ofList ((Text.splitOn (· == '/') path.toList).getLastD [])

/-- The name of a method in the declarations: its own name, if it has one that is not empty, or
the last segment of its path. -/
def displayName (m : Method) : String :=
  match m.name with
  | some n => if n.isEmpty then lastSegment m.path else n
  | none => lastSegment m.path

end Method

namespace Entity

/-- All columns, those of the page query last. -/
def allColumns (e : Entity) : List Column := e.columns ++ e.pageColumns

/-- Keep the first column of every source; `seen` are the sources before. -/
def firstPerSource (seen : List String) : List Column → List Column
  | [] => []
  | c :: cs =>
    if seen.contains c.source then firstPerSource seen cs
    else c :: firstPerSource (c.source :: seen) cs

/-- All columns, of every source the first one. -/
def mergedColumns (e : Entity) : List Column := firstPerSource [] e.allColumns

/-- The first column of a source. -/
def columnOf? (e : Entity) (source : String) : Option Column :=
  e.allColumns.find? fun c => c.source == source

/-- The columns that a list of sources names; what names none is left out. -/
def findColumns (e : Entity) (sources : List Json) : List Column :=
  sources.filterMap fun v => v.string?.bind e.columnOf?

/-- The search groups that the page query asks for. -/
def derivedSearch (e : Entity) : Search :=
  let q := e.pageQuery.getD {}
  { fieldEq := e.findColumns q.fieldEq
    fieldLike := e.findColumns q.fieldLike
    keyWordLikeFields := e.findColumns q.keyWordLikeFields }

/-- The entity with search groups: its own, or those of its page query. -/
def fillSearch (e : Entity) : Entity :=
  match e.search with
  | some _ => e
  | none => { e with search := some e.derivedSearch }

end Entity

end ClientBuild
