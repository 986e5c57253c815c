import ClientBuild.Proofs.Declaration.Parts

/-!
# The whole of the declarations

Nothing that the templates ask for is ever missing, so the declarations are always written
(`synthesizePlain_eq`).  Their text is a row of pieces (`leadTexts`), each a whole declaration or a
few, with the type of the service at the end (`serviceText`).
-/

namespace ClientBuild.Declaration

open Template

variable {levels : List Json}

/-! ## The interface of an entity -/

/-- The comment on a column. -/
def columnComment (c : Column) : String :=
  docText (if c.comment.isEmpty then c.propertyName else c.comment)

/-- A field of the interface of an entity. -/
def fieldText (types : TypeMap) (c : Column) : String :=
  String.join
    ["\t/**\n\t * ", columnComment c, "\n\t */\n\t", c.propertyName, "?: ",
     types.typeOf c.propertyName c.type, ";\n"]

/-- The interface of an entity. -/
def entityText (t : Target) (types : TypeMap) (e : Entity) : String :=
  String.join
    [exportWord t, "interface ", entityName e, " \x7b\n",
     String.join (e.mergedColumns.map (fieldText types)),
     if !t.isCrossPlatform then "\t/**\n\t * Any other key\n\t */\n\t[key: string]: any;\n" else "",
     "\x7d\n"]

theorem render_field (types : TypeMap) (levels : List Json) (c : Column) :
    renderPieces (fieldContext types c :: levels)
        [.text "\t/**\n\t * ", .field "comment", .text "\n\t */\n\t", .field "name", .text "?: ",
         .field "ts_type", .text ";\n"] = some (fieldText types c) := by
  have hcomment : lookup (fieldContext types c :: levels) ⟨0, some "comment"⟩ =
      some (.string (columnComment c)) := by
    simp [fieldContext, columnComment, lookup, Json.member?, Assoc.get?]
  have hname : lookup (fieldContext types c :: levels) ⟨0, some "name"⟩ =
      some (.string c.propertyName) := by
    simp [fieldContext, lookup, Json.member?, Assoc.get?]
  have htype : lookup (fieldContext types c :: levels) ⟨0, some "ts_type"⟩ =
      some (.string (types.typeOf c.propertyName c.type)) := by
    simp [fieldContext, lookup, Json.member?, Assoc.get?]
  exact renderPieces_cons (renderPiece_text _) <| renderPieces_cons (renderPiece_field hcomment) <|
    renderPieces_cons (renderPiece_text _) <| renderPieces_cons (renderPiece_field hname) <|
    renderPieces_cons (renderPiece_text _) <| renderPieces_cons (renderPiece_field htype) <|
    renderPieces_cons (renderPiece_text _) renderPieces_nil

/-- **Rendering the interface of an entity gives its text.** -/
theorem render_entity (t : Target) (types : TypeMap) (e : Entity) :
    Template.render Template.entity (entityContext t types e) = .ok (entityText t types e) := by
  have hword : lookup [entityContext t types e] ⟨0, some "export_kw"⟩ =
      some (.string (exportWord t)) := by
    simp [entityContext, lookup, Json.member?, Assoc.get?]
  have hname : lookup [entityContext t types e] ⟨0, some "name"⟩ =
      some (.string (entityName e)) := by
    simp [entityContext, lookup, Json.member?, Assoc.get?]
  have hfields : lookup [entityContext t types e] ⟨0, some "fields"⟩ =
      some (.array (e.mergedColumns.map (fieldContext types))) := by
    simp [entityContext, lookup, Json.member?, Assoc.get?]
  have hflag : lookup [entityContext t types e] ⟨0, some "index_signature"⟩ =
      some (.bool !t.isCrossPlatform) := by
    simp [entityContext, lookup, Json.member?, Assoc.get?]
  have heach := renderPiece_each hfields fun c _ => render_field types _ c
  have hsignature : renderPieces [entityContext t types e]
      [.text "\t/**\n\t * Any other key\n\t */\n\t[key: string]: any;\n"] =
      some "\t/**\n\t * Any other key\n\t */\n\t[key: string]: any;\n" := rfl
  have hpieces : renderPieces [entityContext t types e] Template.entity =
      some (entityText t types e) :=
    renderPieces_cons (renderPiece_field hword) <| renderPieces_cons (renderPiece_text _) <|
    renderPieces_cons (renderPiece_field hname) <| renderPieces_cons (renderPiece_text _) <|
    renderPieces_cons heach <| renderPieces_cons (renderPiece_whenSet hflag hsignature) <|
    renderPieces_cons (renderPiece_text _) renderPieces_nil
  rw [Template.render, hpieces]

/-- The interfaces of entities are always rendered. -/
theorem entityTexts_eq (t : Target) (types : TypeMap) (es : List Entity) :
    entityTexts t types es = .ok (String.join (es.map fun e => entityText t types e ++ "\n")) := by
  rw [entityTexts, mapM_of_ok fun e _ => render_entity t types e]
  simp only [bind, Except.bind, pure, Except.pure, List.map_map]
  rfl

/-! ## The declarations that every text has -/

/-- The union of the keys of a dictionary, if it was answered. -/
def dictText (t : Target) : Option (List String) → String
  | some keys => String.join [exportWord t, "type DictKey = ", dictKeyUnion keys, ";\n\n"]
  | none => ""

/-- What keeps an interface open for other keys. -/
def indexText (t : Target) : String :=
  if !t.isCrossPlatform then "\t[key: string]: any;\n" else ""

/-- The type of JSON values, the keys of the dictionary, and how a page is counted. -/
def helperText (t : Target) (dictKeys : Option (List String)) : String :=
  String.join
    ["\n", exportWord t, "type json = any;\n\n", dictText t dictKeys, exportWord t,
     "interface PagePagination \x7b\n\tsize: number;\n\tpage: number;\n\ttotal: number;\n",
     indexText t, "\x7d\n\n"]

/-- The answer of a page query for any entity. -/
def genericText (t : Target) : String :=
  String.join
    [exportWord t, "interface PageResponse<T> \x7b\n\tpagination: PagePagination;\n\tlist: T[];\n",
     indexText t, "\x7d\n\n"]

/-- The answer of a page query. -/
def pageText (t : Target) (p : PageType) : String :=
  String.join
    [exportWord t, "interface ", p.name, " \x7b\n\tpagination: PagePagination;\n\tlist: ", p.entity,
     "[];\n\x7d\n\n"]

/-- The types of requests, which only ambient declarations have. -/
def requestText (t : Target) : String :=
  if !t.isCrossPlatform then
    String.join
      [exportWord t,
       "interface RequestOptions \x7b\n\turl: string;\n\tmethod?: \"OPTIONS\" | \"GET\" | \"HEAD\" | \"POST\" | \"PUT\" | \"DELETE\" | \"TRACE\" | \"CONNECT\";\n\tdata?: any;\n\tparams?: any;\n\theaders?: any;\n\ttimeout?: number;\n\t[key: string]: any;\n\x7d\n\n",
       exportWord t, "type Request = (options: RequestOptions) => Promise<any>;\n\n"]
  else ""

/-- The type of the service with its lines. -/
def serviceText (t : Target) (chain : String) : String :=
  String.join
    [exportWord t, "type Service = \x7b\n",
     if !t.isCrossPlatform then "\trequest: Request;\n" else "", chain, "\n\x7d\n"]

/-- The page types of controllers, each one once. -/
def pagesOf (cs : List Controller) : List PageType :=
  Text.distinct (cs.flatMap fun c => pageTypes c.name c.entity)

/-- The interfaces of the entities that get one. -/
def entityPieces (t : Target) (types : TypeMap) (es : List Entity) : List String :=
  (declaredEntities [] es).1.map fun e => entityText t types e ++ "\n"

/-- The interfaces of controllers. -/
def controllerPieces (t : Target) (cs : List Controller) : List String :=
  cs.map fun c => controllerText t c.name c.entity ++ "\n"

/-- The declarations in front of the types of requests and of the service, in order. -/
def leadTexts (t : Target) (types : TypeMap) (es : List Entity) (tree : RouteTree)
    (dictKeys : Option (List String)) : List String :=
  let cs := (walkNodes es [] tree).controllers
  entityPieces t types es ++ [helperText t dictKeys, genericText t] ++
    (pagesOf cs).map (pageText t) ++ controllerPieces t cs

/-- The text of the declarations before it gets the form of its target. -/
def plainText (t : Target) (types : TypeMap) (es : List Entity) (tree : RouteTree)
    (dictKeys : Option (List String)) : String :=
  String.join (leadTexts t types es tree dictKeys) ++ "\n" ++ requestText t ++
    serviceText t (walkNodes es [] tree).chain

/-! ## Rendering them -/

/-- The union of keys always has some text. -/
theorem dictKeyUnion_isEmpty (keys : List String) : (dictKeyUnion keys).isEmpty = false := by
  rw [dictKeyUnion]
  cases keys with
  | nil => rfl
  | cons key keys =>
    have hne : Text.join " | ".toList ((key :: keys).map Json.quote) ≠ [] := by
      cases keys <;> simp [Text.join, Json.quote]
    simpa [String.isEmpty_iff, ← String.toList_inj] using hne

/-- The context of the whole of the declarations. -/
def wholeContext (t : Target) (entities controllers chain : String) (pages : List PageType)
    (dictKeys : Option (List String)) : Json :=
  .object
    [("export_kw", .string (exportWord t)), ("entities", .string entities),
     ("dict_key", match dictKeys with
        | some keys => .string (dictKeyUnion keys)
        | none => .null),
     ("index_signature", .bool !t.isCrossPlatform),
     ("page_responses", .array (pages.map PageType.context)),
     ("controllers", .string controllers), ("request_binding", .bool !t.isCrossPlatform),
     ("chain", .string chain)]

section whole

variable (t : Target) (entities controllers chain : String) (pages : List PageType)
  (dictKeys : Option (List String))

theorem lookup_word : lookup [wholeContext t entities controllers chain pages dictKeys]
    ⟨0, some "export_kw"⟩ = some (.string (exportWord t)) := by
  simp [wholeContext, lookup, Json.member?, Assoc.get?]

theorem render_dict : renderPiece [wholeContext t entities controllers chain pages dictKeys]
    (.whenSet "dict_key"
      [.field "export_kw", .text "type DictKey = ", .field "dict_key", .text ";\n\n"]) =
    some (dictText t dictKeys) := by
  cases dictKeys with
  | none =>
    have hlookup : lookup [wholeContext t entities controllers chain pages none]
        ⟨0, some "dict_key"⟩ = some .null := by
      simp [wholeContext, lookup, Json.member?, Assoc.get?]
    rw [Piece.whenSet, renderPiece_branch hlookup]
    rfl
  | some keys =>
    have hlookup : lookup [wholeContext t entities controllers chain pages (some keys)]
        ⟨0, some "dict_key"⟩ = some (.string (dictKeyUnion keys)) := by
      simp [wholeContext, lookup, Json.member?, Assoc.get?]
    have htruthy : isTruthy (.string (dictKeyUnion keys)) = true := by
      simp [isTruthy, dictKeyUnion_isEmpty]
    rw [Piece.whenSet, renderPiece_branch hlookup, if_pos htruthy]
    exact renderPieces_cons (renderPiece_field (lookup_word ..)) <|
      renderPieces_cons (renderPiece_text _) <| renderPieces_cons (renderPiece_field hlookup) <|
      renderPieces_cons (renderPiece_text _) renderPieces_nil

theorem render_index : renderPiece [wholeContext t entities controllers chain pages dictKeys]
    indexSignature = some (indexText t) := by
  have hflag : lookup [wholeContext t entities controllers chain pages dictKeys]
      ⟨0, some "index_signature"⟩ = some (.bool !t.isCrossPlatform) := by
    simp [wholeContext, lookup, Json.member?, Assoc.get?]
  exact renderPiece_whenSet hflag rfl

theorem lookup_binding : lookup [wholeContext t entities controllers chain pages dictKeys]
    ⟨0, some "request_binding"⟩ = some (.bool !t.isCrossPlatform) := by
  simp [wholeContext, lookup, Json.member?, Assoc.get?]

theorem render_requests : renderPiece [wholeContext t entities controllers chain pages dictKeys]
    (.whenSet "request_binding" requestTypes) = some (requestText t) :=
  renderPiece_whenSet (lookup_binding ..) <|
    renderPieces_cons (renderPiece_field (lookup_word ..)) <|
    renderPieces_cons (renderPiece_text _) <|
    renderPieces_cons (renderPiece_field (lookup_word ..)) <|
    renderPieces_cons (renderPiece_text _) renderPieces_nil

/-- A page type takes the word in front of it from the context around. -/
theorem render_page (p : PageType) :
    renderPieces (p.context :: [wholeContext t entities controllers chain pages dictKeys])
      pageResponse = some (pageText t p) := by
  have hword : renderPiece
      (p.context :: [wholeContext t entities controllers chain pages dictKeys])
      (.value ⟨1, some "export_kw"⟩) = some (exportWord t) := rfl
  have hname : lookup (p.context :: [wholeContext t entities controllers chain pages dictKeys])
      ⟨0, some "name"⟩ = some (.string p.name) := by
    simp [PageType.context, lookup, Json.member?, Assoc.get?]
  have hentity : lookup (p.context :: [wholeContext t entities controllers chain pages dictKeys])
      ⟨0, some "entity"⟩ = some (.string p.entity) := by
    simp [PageType.context, lookup, Json.member?, Assoc.get?]
  exact renderPieces_cons hword <| renderPieces_cons (renderPiece_text _) <|
    renderPieces_cons (renderPiece_field hname) <| renderPieces_cons (renderPiece_text _) <|
    renderPieces_cons (renderPiece_field hentity) <| renderPieces_cons (renderPiece_text _)
      renderPieces_nil

/-- **Rendering the whole of the declarations gives their text.** -/
theorem render_declarations :
    Template.render Template.declarations
        (wholeContext t entities controllers chain pages dictKeys) =
      .ok (entities ++ helperText t dictKeys ++ genericText t ++
        String.join (pages.map (pageText t)) ++ controllers ++ "\n" ++ requestText t ++
        serviceText t chain) := by
  have hentities : lookup [wholeContext t entities controllers chain pages dictKeys]
      ⟨0, some "entities"⟩ = some (.string entities) := by
    simp [wholeContext, lookup, Json.member?, Assoc.get?]
  have hpages : lookup [wholeContext t entities controllers chain pages dictKeys]
      ⟨0, some "page_responses"⟩ = some (.array (pages.map PageType.context)) := by
    simp [wholeContext, lookup, Json.member?, Assoc.get?]
  have hcontrollers : lookup [wholeContext t entities controllers chain pages dictKeys]
      ⟨0, some "controllers"⟩ = some (.string controllers) := by
    simp [wholeContext, lookup, Json.member?, Assoc.get?]
  have hchain : lookup [wholeContext t entities controllers chain pages dictKeys]
      ⟨0, some "chain"⟩ = some (.string chain) := by
    simp [wholeContext, lookup, Json.member?, Assoc.get?]
  have hword := renderPiece_field (lookup_word t entities controllers chain pages dictKeys)
  have hindex := render_index t entities controllers chain pages dictKeys
  have heach : renderPiece [wholeContext t entities controllers chain pages dictKeys]
      (.forEach "page_responses" pageResponse) = some (String.join (pages.map (pageText t))) :=
    renderPiece_each hpages fun p _ => render_page t entities controllers chain pages dictKeys p
  have hrequest := renderPiece_whenSet (lookup_binding t entities controllers chain pages dictKeys)
    (show renderPieces _ [.text "\trequest: Request;\n"] = some "\trequest: Request;\n" from rfl)
  have hpieces :=
    renderPieces_cons (renderPiece_field hentities) <| renderPieces_cons (renderPiece_text "\n") <|
    renderPieces_cons hword <| renderPieces_cons (renderPiece_text "type json = any;\n\n") <|
    renderPieces_cons (render_dict t entities controllers chain pages dictKeys) <|
    renderPieces_cons hword <|
    renderPieces_cons (renderPiece_text
      "interface PagePagination \x7b\n\tsize: number;\n\tpage: number;\n\ttotal: number;\n") <|
    renderPieces_cons hindex <| renderPieces_cons (renderPiece_text "\x7d\n\n") <|
    renderPieces_cons hword <|
    renderPieces_cons (renderPiece_text
      "interface PageResponse<T> \x7b\n\tpagination: PagePagination;\n\tlist: T[];\n") <|
    renderPieces_cons hindex <| renderPieces_cons (renderPiece_text "\x7d\n\n") <|
    renderPieces_cons heach <| renderPieces_cons (renderPiece_field hcontrollers) <|
    renderPieces_cons (renderPiece_text "\n") <|
    renderPieces_cons (render_requests t entities controllers chain pages dictKeys) <|
    renderPieces_cons hword <| renderPieces_cons (renderPiece_text "type Service = \x7b\n") <|
    renderPieces_cons hrequest <| renderPieces_cons (renderPiece_field hchain) <|
    renderPieces_cons (renderPiece_text "\n\x7d\n") renderPieces_nil
  rw [Template.render, Template.declarations, hpieces]
  simp only [helperText, genericText, serviceText, String.join_cons, String.join_nil,
    String.append_empty, String.append_assoc]

end whole

/-- **The declarations are always rendered**, to that text. -/
theorem synthesizePlain_eq (t : Target) (types : TypeMap) (es : List Entity) (tree : RouteTree)
    (dictKeys : Option (List String)) :
    synthesizePlain t types es tree dictKeys =
      .ok ⟨plainText t types es tree dictKeys,
        (declaredEntities [] es).2 ++ (walkNodes es [] tree).collisions⟩ := by
  have hrender := render_declarations t
    (String.join ((declaredEntities [] es).1.map fun e => entityText t types e ++ "\n"))
    (String.join ((walkNodes es [] tree).controllers.map fun c =>
      controllerText t c.name c.entity ++ "\n"))
    (walkNodes es [] tree).chain (pagesOf (walkNodes es [] tree).controllers) dictKeys
  have htext : plainText t types es tree dictKeys =
      String.join ((declaredEntities [] es).1.map fun e => entityText t types e ++ "\n") ++
        helperText t dictKeys ++ genericText t ++
        String.join ((pagesOf (walkNodes es [] tree).controllers).map (pageText t)) ++
        String.join ((walkNodes es [] tree).controllers.map fun c =>
          controllerText t c.name c.entity ++ "\n") ++ "\n" ++ requestText t ++
        serviceText t (walkNodes es [] tree).chain := by
    simp only [plainText, leadTexts, entityPieces, controllerPieces, String.join_append,
      String.join_cons, String.join_nil, String.append_empty, String.append_assoc]
  rw [htext]
  simp only [synthesizePlain, entityTexts_eq, controllerTexts_eq]
  exact congrArg (fun r => Except.bind r fun text => Except.ok (Synthesized.mk text _)) hrender

end ClientBuild.Declaration
