import ClientBuild.Json.Reader
import ClientBuild.Json.Record
import ClientBuild.Schema.Entity

/-!
# Reading entities from JSON

Every modelled key may be missing or `null`.  A value of the wrong kind makes the whole entity
unreadable.  Entities, methods and columns keep the members that are not modelled; all other
records pass over them.
-/

namespace ClientBuild

open Json

/-- Read a column. -/
def Column.ofJson? (v : Json) : Option Column := do
  let r ← Record.open? ["propertyName", "type", "source", "comment", "nullable"] v
  let propertyName ← r.nullable "propertyName" asString ""
  let type ← r.nullable "type" asString ""
  let source ← r.nullable "source" asString ""
  let comment ← r.nullable "comment" asString ""
  let nullable ← r.nullable "nullable" asBool false
  pure { propertyName, type, source, comment, nullable, extra := r.extra }

/-- Read the schema of a parameter: its type, if it names one. -/
def Parameter.typeOfJson? (v : Json) : Option (Option String) := do
  let r ← Record.closed? ["type"] v
  r.optional "type" asString

/-- Read a parameter. -/
def Parameter.ofJson? (v : Json) : Option Parameter := do
  let r ← Record.closed? ["name", "required", "description", "schema"] v
  let name ← r.nullable "name" asString ""
  let required ← r.nullable "required" asBool false
  let description ← r.optional "description" asString
  let type ← r.nullable "schema" Parameter.typeOfJson? none
  pure { name, required, description, type }

/-- Read the request description of a method: its parameters. -/
def Method.parametersOfJson? (v : Json) : Option (List Parameter) := do
  let r ← Record.closed? ["parameters"] v
  r.nullable "parameters" (asList Parameter.ofJson?) []

/-- Read a method. -/
def Method.ofJson? (v : Json) : Option Method := do
  let r ← Record.open? ["path", "method", "name", "summary", "prefix", "tag", "dts"] v
  let path ← r.nullable "path" asString ""
  let method ← r.nullable "method" asString ""
  let name ← r.optional "name" asString
  let summary ← r.optional "summary" asString
  let route ← r.optional "prefix" asString
  let tag ← r.optional "tag" asString
  let parameters ← r.nullable "dts" Method.parametersOfJson? []
  pure { path, method, name, summary, route, tag, parameters, extra := r.extra }

/-- Read the sources of a page query. -/
def PageQuery.ofJson? (v : Json) : Option PageQuery := do
  let r ← Record.closed? ["fieldEq", "fieldLike", "keyWordLikeFields"] v
  let fieldEq ← r.nullable "fieldEq" (asList asAny) []
  let fieldLike ← r.nullable "fieldLike" (asList asAny) []
  let keyWordLikeFields ← r.nullable "keyWordLikeFields" (asList asAny) []
  pure { fieldEq, fieldLike, keyWordLikeFields }

/-- Read search groups. -/
def Search.ofJson? (v : Json) : Option Search := do
  let r ← Record.closed? ["fieldEq", "fieldLike", "keyWordLikeFields"] v
  let fieldEq ← r.nullable "fieldEq" (asList Column.ofJson?) []
  let fieldLike ← r.nullable "fieldLike" (asList Column.ofJson?) []
  let keyWordLikeFields ← r.nullable "keyWordLikeFields" (asList Column.ofJson?) []
  pure { fieldEq, fieldLike, keyWordLikeFields }

/-- The modelled keys of an entity. -/
def Entity.keys : List String :=
  ["prefix", "name", "namespace", "module", "api", "columns", "pageColumns", "pageQueryOp",
   "search"]

/-- Read an entity. -/
def Entity.ofJson? (v : Json) : Option Entity := do
  let r ← Record.open? Entity.keys v
  let route ← r.nullable "prefix" asString ""
  let name ← r.nullable "name" asString ""
  let namespaceHint ← r.nullable "namespace" asString ""
  let module ← r.optional "module" asString
  let methods ← r.nullable "api" (asList Method.ofJson?) []
  let columns ← r.nullable "columns" (asList Column.ofJson?) []
  let pageColumns ← r.nullable "pageColumns" (asList Column.ofJson?) []
  let pageQuery ← r.optional "pageQueryOp" PageQuery.ofJson?
  let search ← r.optional "search" Search.ofJson?
  pure
    { route, name, namespaceHint, module, methods, columns, pageColumns, pageQuery, search,
      extra := r.extra }

/-- The parts of a parameter that are kept. -/
def Parameter.shape : Shape :=
  .closed
    [("name", .whole), ("required", .whole), ("description", .whole),
     ("schema", .closed [("type", .whole)])]

/-- The parts of a method that are kept. -/
def Method.shape : Shape := .open [("dts", .closed [("parameters", .list Parameter.shape)])]

/-- The parts of search groups, or of the sources of a page query, that are kept. -/
def Search.shape : Shape :=
  .closed [("fieldEq", .whole), ("fieldLike", .whole), ("keyWordLikeFields", .whole)]

/-- The parts of an entity that are kept. -/
def Entity.shape : Shape :=
  .open [("api", .list Method.shape), ("pageQueryOp", Search.shape), ("search", Search.shape)]

/-- Read the text of an entity. -/
def Entity.parse? (text : List Char) : Option Entity :=
  (Json.readAs? Entity.shape text).bind Entity.ofJson?

/-- Read a list of entities, all of which have to fit. -/
def Entity.listOfJson? (v : Json) : Option (List Entity) := asList Entity.ofJson? v

/-- Read the text of a list of entities. -/
def Entity.parseList? (text : List Char) : Option (List Entity) :=
  (Json.readAs? (.list Entity.shape) text).bind Entity.listOfJson?

end ClientBuild
