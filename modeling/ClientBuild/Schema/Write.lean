import ClientBuild.Schema.Entity

/-!
# Writing entities as JSON

`toJson` writes an entity in full; values that are absent, and most lists that are empty, are
left out.  `Entity.summaryJson` is the short form: route, name, methods and search groups.
-/

namespace ClientBuild

/-- A member that is left out when there is no value. -/
def Json.whenSome {α : Type} (key : String) (f : α → Json) : Option α → List (String × Json)
  | none => []
  | some a => [(key, f a)]

/-- A member that is left out when the list is empty. -/
def Json.whenAny {α : Type} (key : String) (f : α → Json) : List α → List (String × Json)
  | [] => []
  | as => [(key, .array (as.map f))]

/-- A column in full. -/
def Column.toJson (c : Column) : Json :=
  .object
    ([("propertyName", .string c.propertyName), ("type", .string c.type),
      ("source", .string c.source), ("comment", .string c.comment),
      ("nullable", .bool c.nullable)] ++ c.extra)

/-- A parameter in full. -/
def Parameter.toJson (p : Parameter) : Json :=
  .object
    ([("name", .string p.name), ("required", .bool p.required)] ++
      Json.whenSome "description" .string p.description ++
      [("schema", .object (Json.whenSome "type" .string p.type))])

/-- A method in full. -/
def Method.toJson (m : Method) : Json :=
  .object
    ([("path", .string m.path), ("method", .string m.method)] ++
      Json.whenSome "name" .string m.name ++
      Json.whenSome "summary" .string m.summary ++
      Json.whenSome "prefix" .string m.route ++
      Json.whenSome "tag" .string m.tag ++
      (if m.parameters.isEmpty then []
       else [("dts", .object [("parameters", .array (m.parameters.map Parameter.toJson))])]) ++
      m.extra)

/-- The sources of a page query. -/
def PageQuery.toJson (q : PageQuery) : Json :=
  .object
    [("fieldEq", .array q.fieldEq), ("fieldLike", .array q.fieldLike),
     ("keyWordLikeFields", .array q.keyWordLikeFields)]

/-- Search groups. -/
def Search.toJson (s : Search) : Json :=
  .object
    [("fieldEq", .array (s.fieldEq.map Column.toJson)),
     ("fieldLike", .array (s.fieldLike.map Column.toJson)),
     ("keyWordLikeFields", .array (s.keyWordLikeFields.map Column.toJson))]

namespace Entity

/-- An entity in full. -/
def toJson (e : Entity) : Json :=
  .object
    ([("prefix", .string e.route), ("name", .string e.name),
      ("namespace", .string e.namespaceHint)] ++
      Json.whenSome "module" .string e.module ++
      [("api", .array (e.methods.map Method.toJson)),
       ("columns", .array (e.columns.map Column.toJson))] ++
      Json.whenAny "pageColumns" Column.toJson e.pageColumns ++
      Json.whenSome "pageQueryOp" PageQuery.toJson e.pageQuery ++
      Json.whenSome "search" Search.toJson e.search ++
      e.extra)

/-- A list of entities in full. -/
def listToJson (es : List Entity) : Json := .array (es.map toJson)

end Entity

/-- The short form of a method. -/
def Method.summaryJson (m : Method) : Json :=
  .object
    (Json.whenSome "name" .string m.name ++
      [("method", .string m.method), ("path", .string m.path)])

/-- The short form of an entity. -/
def Entity.summaryJson (e : Entity) : Json :=
  .object
    ([("prefix", .string e.route), ("name", .string e.name),
      ("api", .array (e.methods.map Method.summaryJson))] ++
      Json.whenSome "search" Search.toJson e.search)

end ClientBuild
