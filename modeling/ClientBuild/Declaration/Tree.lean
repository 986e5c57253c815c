import ClientBuild.Assoc
import ClientBuild.Declaration.Name
import ClientBuild.Schema.Write

/-!
# The tree of routes

Routes become a tree: every segment is a node below the one before it, and the last one is the
leaf that its entity is bound to.  A leaf has a permission for everything that it held when an
entity was bound to it again.
-/

namespace ClientBuild

/-- A node of the tree of routes. -/
structure RouteNode where
  /-- The route of the first entity bound here; a node with one is a leaf. -/
  route : Option String := none
  permission : List (String × String) := []
  search : Option Search := none
  methods : List (String × Method) := []
  children : List (String × RouteNode) := []
deriving Inhabited

/-- The roots of a tree of routes. -/
abbrev RouteTree := List (String × RouteNode)

namespace RouteNode

/-- Is an entity bound to the node? -/
def isLeaf (n : RouteNode) : Bool := n.route.isSome

/-- The names of what the node holds: search groups, methods and children. -/
def memberNames (n : RouteNode) : List String :=
  (match n.search with | some _ => ["search"] | none => []) ++
    Assoc.keys n.methods ++ Assoc.keys n.children

end RouteNode

namespace RouteTree

/-- The route of an entity without a slash in front. -/
def pathOf (e : Entity) : List Char := (Text.after? ['/'] e.route.toList).getD e.route.toList

/-- The segments of an entity's route: those of its path without the namespace. -/
def segmentsOf (namespaceId : String) (e : Entity) : List String :=
  let path := Text.replaceFirst namespaceId.toList [] (pathOf e)
  ((Text.splitOn (· == '/') path).filter fun s => !s.isEmpty).map fun s =>
    String.ofList (Declaration.toCamel s)

/-- The name under which a leaf holds a method; methods with other paths are not held. -/
def methodKey? (m : Method) : Option String :=
  let key := Method.lastSegment m.path
  if key.isEmpty || key.toList.any (fun c => c == '-' || c == ':') then none else some key

/-- The permission for a member of a leaf. -/
def permissionOf (namespaceId route member : String) : String :=
  let base := Text.replaceFirst (namespaceId.toList ++ ['/']) [] route.toList
  String.ofList ((base ++ '/' :: member.toList).map fun c => if c = '/' then ':' else c)

/-- Bind an entity to a node. -/
def bind (namespaceId : String) (e : Entity) (n : RouteNode) : RouteNode :=
  let route := n.route.getD (String.ofList (pathOf e))
  { n with
    route := some route
    permission := n.memberNames.foldl
      (fun m name => Assoc.insert name (permissionOf namespaceId route name) m) n.permission
    search := e.search
    methods := e.methods.foldl
      (fun ms m =>
        match methodKey? m with
        | some key => Assoc.insert key m ms
        | none => ms) n.methods }

/-- Bind an entity below a level of the tree, at the node that segments lead to. -/
def insertAt (namespaceId : String) (e : Entity) : List String → RouteTree → RouteTree
  | [], level => level
  | [last], level => Assoc.alter last (fun n => bind namespaceId e (n.getD {})) level
  | s :: rest, level =>
    Assoc.alter s
      (fun n =>
        let n := n.getD {}
        { n with children := insertAt namespaceId e rest n.children }) level

/-- The tree of a list of entities. -/
def build (namespaceId : String) (es : List Entity) : RouteTree :=
  es.foldl (fun t e => insertAt namespaceId e (segmentsOf namespaceId e) t) []

/-- The node that keys lead to. -/
def get? : (keys : List String) → RouteTree → Option RouteNode
  | [], _ => none
  | [k], level => Assoc.get? k level
  | k :: ks, level => (Assoc.get? k level).bind fun n => get? ks n.children

end RouteTree

namespace RouteNode

mutual

/-- A node as a JSON object; what is empty is left out. -/
def toJson : RouteNode → Json
  | ⟨route, permission, search, methods, children⟩ =>
    .object
      (Json.whenSome "namespace" .string route ++
        (if permission.isEmpty then []
         else [("permission", .object (permission.map fun (k, v) => (k, .string v)))]) ++
        Json.whenSome "search" Search.toJson search ++
        (if methods.isEmpty then []
         else [("methods", .object (methods.map fun (k, m) => (k, m.toJson)))]) ++
        (if children.isEmpty then [] else [("children", .object (childrenToJson children))]))

/-- Nodes with their keys as members of a JSON object. -/
def childrenToJson : List (String × RouteNode) → List (String × Json)
  | [] => []
  | (k, n) :: ns => (k, toJson n) :: childrenToJson ns

end

end RouteNode

/-- A tree as a JSON object. -/
def RouteTree.toJson (t : RouteTree) : Json := .object (RouteNode.childrenToJson t)

end ClientBuild
