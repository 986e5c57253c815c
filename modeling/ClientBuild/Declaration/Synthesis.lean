import ClientBuild.Declaration.Flatten
import ClientBuild.Declaration.Tree
import ClientBuild.Declaration.TypeMap
import ClientBuild.Template.Declarations

/-!
# Declarations of a schema

Every entity with a new lawful name gets an interface, every leaf of the tree of routes gets the
interface of a controller, and the type of the service has the shape of the tree.  The
cross-platform target exports everything, flattens the service type and turns interfaces into
types; the other targets get one ambient namespace.
-/

namespace ClientBuild.Declaration

/-- The text of a doc comment: on one line, and without the end of a comment. -/
def docText (s : String) : String :=
  String.ofList (Text.join [' ']
    (Text.words (Text.replaceAll ['*', '/'] ['*', '\\', '/'] s.toList)))

/-- The union of dictionary keys as a type. -/
def dictKeyUnion (keys : List String) : String :=
  if keys.isEmpty then "string"
  else String.ofList (Text.join " | ".toList (keys.map Json.quote))

/-- A list of characters as a string. -/
def ofChars (s : List Char) : String := String.ofList s

/-- The word in front of declarations. -/
def exportWord (t : Target) : String := if t.isCrossPlatform then "export " else ""

/-- The name under which an entity is declared. -/
def entityName (e : Entity) : String := ofChars (plainName e.name.toList)

/-- Can the entity be declared? -/
def hasLawfulName (e : Entity) : Bool :=
  isLawful e.name.toList && isLawful (plainName e.name.toList)

/-- The context of a field of an entity. -/
def fieldContext (types : TypeMap) (c : Column) : Json :=
  .object
    [("name", .string c.propertyName), ("ts_type", .string (types.typeOf c.propertyName c.type)),
     ("comment", .string (docText (if c.comment.isEmpty then c.propertyName else c.comment)))]

/-- The context of the interface of an entity. -/
def entityContext (t : Target) (types : TypeMap) (e : Entity) : Json :=
  .object
    [("export_kw", .string (exportWord t)), ("name", .string (entityName e)),
     ("fields", .array (e.mergedColumns.map (fieldContext types))),
     ("index_signature", .bool !t.isCrossPlatform)]

/-- The entities that get an interface, and the collisions of the others; `seen` are the names
declared before. -/
def declaredEntities (seen : List String) : List Entity → List Entity × List Collision
  | [] => ([], [])
  | e :: es =>
    if !hasLawfulName e then
      let (kept, cs) := declaredEntities seen es
      (kept, if e.name.isEmpty then cs else ⟨.illegalName, e.name, e.route⟩ :: cs)
    else if seen.contains (entityName e) then
      let (kept, cs) := declaredEntities seen es
      (kept, ⟨.entityName, entityName e, e.route⟩ :: cs)
    else
      let (kept, cs) := declaredEntities (entityName e :: seen) es
      (e :: kept, cs)

/-- The text of the interfaces of entities. -/
def entityTexts (t : Target) (types : TypeMap) (es : List Entity) : Except Failure String := do
  let texts ← es.mapM fun e => Template.render Template.entity (entityContext t types e)
  pure (String.join (texts.map (· ++ "\n")))

/-- A type for the answer of a page query. -/
structure PageType where
  name : String
  entity : String
deriving DecidableEq, Repr

/-- The context of a page type. -/
def PageType.context (p : PageType) : Json :=
  .object [("name", .string p.name), ("entity", .string p.entity)]

/-- The type of an entity in the methods of its controller. -/
def entityType (e : Entity) : String := if hasLawfulName e then entityName e else "any"

/-- The name of a method in the declarations. -/
def methodName (m : Method) : List Char := toCamel (plainName m.displayName.toList)

/-- Is the text more than blanks? -/
def hasText (s : String) : Bool := !Text.allBlank s.toList

/-- The context of a parameter. -/
def parameterContext (p : Parameter) : Json :=
  .object
    [("name", .string p.name), ("optional", .bool !p.required),
     ("ts_type", .string ((p.type.filter fun t => !t.isEmpty).getD "string")),
     ("description", match p.description.filter hasText with
        | some d => .string (docText d)
        | none => .null)]

/-- The type that a method answers. -/
def answerType (t : Target) (controller : String) (e : Entity) (m : Method) : String :=
  if t.isCrossPlatform then "any"
  else
    match m.path with
    | "/page" => controller ++ "PageResponse"
    | "/list" => entityType e ++ "[]"
    | "/info" => entityType e
    | _ => "any"

/-- The context of a method. -/
def methodContext (t : Target) (controller : String) (e : Entity) (m : Method) : Json :=
  let name := ofChars (methodName m)
  .object
    [("name", .string name),
     ("summary", .string (docText ((m.summary.filter hasText).getD name))),
     ("params", .array
       ((m.parameters.filter fun p => isLawful p.name.toList).map parameterContext)),
     ("returns", .string (answerType t controller e m))]

/-- The methods of an entity that are declared. -/
def declaredMethods (e : Entity) : List Method :=
  e.methods.filter fun m => isLawful (methodName m)

/-- The collisions of the methods that are not declared. -/
def methodCollisions (e : Entity) : List Collision :=
  e.methods.filterMap fun m =>
    let name := methodName m
    if isLawful name || name.isEmpty then none
    else some ⟨.illegalName, ofChars name, e.route ++ m.path⟩

/-- The context of the interface of a controller. -/
def controllerContext (t : Target) (controller : String) (e : Entity) : Json :=
  let methods := declaredMethods e
  .object
    [("export_kw", .string (exportWord t)), ("name", .string controller),
     ("methods", .array (methods.map (methodContext t controller e))),
     ("with_permissions", .bool !t.isCrossPlatform),
     ("permissions", .ofStrings
       (Text.distinct (methods.map fun m => ofChars (methodName m))))]

/-- The page types that the methods of a controller need. -/
def pageTypes (controller : String) (e : Entity) : List PageType :=
  (declaredMethods e).filterMap fun m =>
    if m.path == "/page" then some ⟨controller ++ "PageResponse", entityType e⟩ else none

/-- The entity that a leaf was made for: the first one with exactly that route. -/
def entityAt? (es : List Entity) (route : String) : Option Entity :=
  es.find? fun e => e.route == "/" ++ route

/-- A controller to be declared. -/
structure Controller where
  name : String
  entity : Entity

/-- What walking the tree finds: controllers, the lines of the service type, and collisions. -/
structure Walk where
  controllers : List Controller := []
  chain : String := ""
  collisions : List Collision := []

/-- What two walks find, one after the other. -/
def Walk.append (a b : Walk) : Walk :=
  ⟨a.controllers ++ b.controllers, a.chain ++ b.chain, a.collisions ++ b.collisions⟩

/-- The name of a node below a named one. -/
def nodeName (above : List Char) (key : String) : List Char :=
  above ++ toCamel (capitalize (plainName key.toList))

mutual

/-- Walk a node of the tree. -/
def walkNode (es : List Entity) (above : List Char) (key : String) : RouteNode → Walk
  | ⟨route, _, _, _, children⟩ =>
    let name := nodeName above key
    let keyName := ofChars (plainName key.toList)
    if !isLawful name then { collisions := [⟨.illegalName, ofChars name, key⟩] }
    else
      match route with
      | some r =>
        match entityAt? es r with
        | some e =>
          { controllers := [⟨ofChars name, e⟩]
            chain := keyName ++ ": " ++ ofChars name ++ ";\n"
            collisions := methodCollisions e }
        | none => {}
      | none =>
        let inner := walkNodes es name children
        { inner with chain := keyName ++ ": \x7b\n" ++ inner.chain ++ "\x7d;\n" }

/-- Walk the nodes of a level. -/
def walkNodes (es : List Entity) (above : List Char) : List (String × RouteNode) → Walk
  | [] => {}
  | (key, n) :: ns => (walkNode es above key n).append (walkNodes es above ns)

end

/-- The text of the interfaces of controllers. -/
def controllerTexts (t : Target) (cs : List Controller) : Except Failure String := do
  let texts ← cs.mapM fun c =>
    Template.render Template.controller (controllerContext t c.name c.entity)
  pure (String.join (texts.map (· ++ "\n")))

/-- The declarations of a schema and what was left out of them. -/
structure Synthesized where
  text : String
  collisions : List Collision

/-- The declarations before they get the form of the target, and the collisions so far. -/
def synthesizePlain (t : Target) (types : TypeMap) (es : List Entity) (tree : RouteTree)
    (dictKeys : Option (List String)) : Except Failure Synthesized := do
  let (declared, nameCollisions) := declaredEntities [] es
  let entities ← entityTexts t types declared
  let walk := walkNodes es [] tree
  let controllers ← controllerTexts t walk.controllers
  let pages := Text.distinct (walk.controllers.flatMap fun c => pageTypes c.name c.entity)
  let text ← Template.render Template.declarations
    (.object
      [("export_kw", .string (exportWord t)), ("entities", .string entities),
       ("dict_key", match dictKeys with
          | some keys => .string (dictKeyUnion keys)
          | none => .null),
       ("index_signature", .bool !t.isCrossPlatform),
       ("page_responses", .array (pages.map PageType.context)),
       ("controllers", .string controllers), ("request_binding", .bool !t.isCrossPlatform),
       ("chain", .string walk.chain)])
  pure ⟨text, nameCollisions ++ walk.collisions⟩

/-- The declarations of a schema in the form of a target. -/
def synthesize (t : Target) (types : TypeMap) (es : List Entity) (tree : RouteTree)
    (dictKeys : Option (List String)) : Except Failure Synthesized := do
  let plain ← synthesizePlain t types es tree dictKeys
  if t.isCrossPlatform then
    let flat ← flatten plain.text.toList
    pure ⟨ofChars (interfacesToTypes flat.text), plain.collisions ++ flat.collisions⟩
  else pure ⟨"declare namespace Eps \x7b\n" ++ plain.text ++ "\n\x7d\n", plain.collisions⟩

end ClientBuild.Declaration
