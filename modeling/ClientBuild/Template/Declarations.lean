import ClientBuild.Template.Basic

/-!
# The templates of declarations

One template each for the interface of an entity, the interface of a controller, and the whole
of the declarations.
-/

namespace ClientBuild.Template

open Piece

/-- The interface of an entity. -/
def entity : List Piece :=
  [field "export_kw", text "interface ", field "name", text " \x7b\n",
   forEach "fields"
     [text "\t/**\n\t * ", field "comment", text "\n\t */\n\t", field "name", text "?: ",
      field "ts_type", text ";\n"],
   whenSet "index_signature" [text "\t/**\n\t * Any other key\n\t */\n\t[key: string]: any;\n"],
   text "\x7d\n"]

/-- A parameter of a method. -/
def parameter : List Piece :=
  [whenSet "description" [text "\t\t/** ", field "description", text " */\n"],
   text "\t\t", field "name", whenSet "optional" [text "?"], text ": ", field "ts_type",
   text ";\n"]

/-- A method of a controller. -/
def method : List Piece :=
  [text "\t/**\n\t * ", field "summary", text "\n\t */\n\t", field "name", text "(data?: ",
   branch ⟨0, some "params"⟩
     [text "\x7b\n", forEach "params" parameter, text "\t\x7d"] [text "any"],
   text "): Promise<", field "returns", text ">;\n"]

/-- The members of a controller for the permissions of its methods. -/
def permissions : List Piece :=
  [text "\t/**\n\t * Permission identifiers\n\t */\n\tpermission: \x7b ",
   forEach "permissions" [value ⟨0, none⟩, text ": string; "],
   text " \x7d;\n\t/**\n\t * Permission state\n\t */\n\t_permission: \x7b ",
   forEach "permissions" [value ⟨0, none⟩, text ": boolean; "],
   text " \x7d;\n\trequest: Request;\n"]

/-- The interface of a controller. -/
def controller : List Piece :=
  [field "export_kw", text "interface ", field "name", text " \x7b\n",
   forEach "methods" method,
   whenSet "with_permissions" permissions,
   text "\x7d\n"]

/-- The index signature of the interfaces that every file has. -/
def indexSignature : Piece := whenSet "index_signature" [text "\t[key: string]: any;\n"]

/-- The answer of a page query. -/
def pageResponse : List Piece :=
  [value ⟨1, some "export_kw"⟩, text "interface ", field "name",
   text " \x7b\n\tpagination: PagePagination;\n\tlist: ", field "entity", text "[];\n\x7d\n\n"]

/-- The types of requests. -/
def requestTypes : List Piece :=
  [field "export_kw",
   text "interface RequestOptions \x7b\n\turl: string;\n\tmethod?: \"OPTIONS\" | \"GET\" | \"HEAD\" | \"POST\" | \"PUT\" | \"DELETE\" | \"TRACE\" | \"CONNECT\";\n\tdata?: any;\n\tparams?: any;\n\theaders?: any;\n\ttimeout?: number;\n\t[key: string]: any;\n\x7d\n\n",
   field "export_kw", text "type Request = (options: RequestOptions) => Promise<any>;\n\n"]

/-- The whole of the declarations. -/
def declarations : List Piece :=
  [field "entities", text "\n", field "export_kw", text "type json = any;\n\n",
   whenSet "dict_key"
     [field "export_kw", text "type DictKey = ", field "dict_key", text ";\n\n"],
   field "export_kw",
   text "interface PagePagination \x7b\n\tsize: number;\n\tpage: number;\n\ttotal: number;\n",
   indexSignature, text "\x7d\n\n", field "export_kw",
   text "interface PageResponse<T> \x7b\n\tpagination: PagePagination;\n\tlist: T[];\n",
   indexSignature, text "\x7d\n\n", forEach "page_responses" pageResponse,
   field "controllers", text "\n", whenSet "request_binding" requestTypes,
   field "export_kw", text "type Service = \x7b\n",
   whenSet "request_binding" [text "\trequest: Request;\n"], field "chain", text "\n\x7d\n"]

/-- The template of a name. -/
def ofName? : String → Option (List Piece)
  | "eps/entity" => some entity
  | "eps/controller" => some controller
  | "eps/declaration" => some declarations
  | _ => none

/-- The text of the template of a name in a context. -/
def renderNamed (name : String) (context : Json) : Except Failure String :=
  match ofName? name with
  | some t => render t context
  | none => .error (.template s!"no template {name}")

end ClientBuild.Template
