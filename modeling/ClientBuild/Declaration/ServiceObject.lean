import ClientBuild.Declaration.Synthesis

/-!
# The service object

The object that sends the requests has the shape of the tree of routes.  Every leaf is cast to
the type of its controller and every other node to the interface of its key.
-/

namespace ClientBuild.Declaration

/-- The text of the service object and the names of the types that it uses. -/
structure ServiceObject where
  content : String := ""
  types : List String := []
deriving DecidableEq, Repr, Inhabited

namespace ServiceObject

/-- Two parts of the text, one after the other; types may stand several times. -/
def append (a b : ServiceObject) : ServiceObject := ⟨a.content ++ b.content, a.types ++ b.types⟩

/-- The verb of a method. -/
def verbOf (m : Method) : String :=
  if m.method.isEmpty then "GET" else ofChars (Text.upper m.method.toList)

/-- A method of a leaf. -/
def methodText (route : String) (m : Method) : String :=
  let name := ofChars (methodName m)
  let summary := (m.summary.filter fun s => !s.isEmpty).getD name
  "/**\n * " ++ summary ++ "\n */\n" ++ name ++ "(data?: any): Promise<any> \x7b\n" ++
    "return request(\x7b\nurl: \"" ++ route ++ m.path ++ "\",\nmethod: \"" ++ verbOf m ++
    "\",\ndata,\n\x7d);\n\x7d,\n"

/-- A leaf: its methods, cast to the type of its controller. -/
def leaf (key name : String) (e : Entity) : ServiceObject :=
  let methods := declaredMethods e
  { content := key ++ ": \x7b\n" ++ String.join (methods.map (methodText e.route)) ++ "\x7d as " ++
      name ++ ",\n"
    types := (if methods.isEmpty || e.name.isEmpty then [] else [e.name]) ++ [name] }

mutual

/-- The part of the object for a node of the tree. -/
def ofNode (es : List Entity) (above : List Char) (key : String) : RouteNode → ServiceObject
  | ⟨route, _, _, _, children⟩ =>
    let name := nodeName above key
    let keyName := ofChars (plainName key.toList)
    if key == "swagger" || !isLawful name then {}
    else
      match route with
      | some r =>
        match entityAt? es r with
        | some e => leaf keyName (ofChars name) e
        | none => {}
      | none =>
        let inner := ofNodes es name children
        let type := ofChars (interfaceName key.toList)
        ⟨keyName ++ ": \x7b\n" ++ inner.content ++ "\x7d as " ++ type ++ ",\n",
          inner.types ++ [type]⟩

/-- The part of the object for the nodes of a level. -/
def ofNodes (es : List Entity) (above : List Char) : List (String × RouteNode) → ServiceObject
  | [] => {}
  | (key, n) :: ns => (ofNode es above key n).append (ofNodes es above ns)

end

/-- The service object of a tree. -/
def build (tree : RouteTree) (es : List Entity) : ServiceObject :=
  let inner := ofNodes es [] tree
  ⟨"\x7b\n" ++ inner.content ++ "\x7d", Text.distinct inner.types⟩

end ServiceObject

end ClientBuild.Declaration
