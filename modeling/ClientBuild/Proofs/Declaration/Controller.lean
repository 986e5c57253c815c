import ClientBuild.Declaration.Synthesis

/-!
# The interface of a controller

The context of a controller has all that its template asks for, so that rendering it never fails,
and what it gives is written out here (`Declaration.render_controller`).
-/

namespace ClientBuild

/-! ## Rendering piece by piece -/

namespace Template

variable {α : Type} {levels : List Json} {p : Piece} {ps body yes no : List Piece} {path : Path}
  {key a text : String} {texts : List String} {f : α → Json} {g : α → String} {xs : List α}

theorem renderPieces_nil : renderPieces levels [] = some (String.join []) := rfl

theorem renderPieces_cons (h : renderPiece levels p = some a)
    (hs : renderPieces levels ps = some (String.join texts)) :
    renderPieces levels (p :: ps) = some (String.join (a :: texts)) := by
  rw [renderPieces, h, hs, String.join_cons]
  rfl

theorem renderPiece_text (text : String) : renderPiece levels (.text text) = some text := rfl

theorem renderPiece_field (h : lookup levels ⟨0, some key⟩ = some (.string text)) :
    renderPiece levels (.field key) = some text := by
  rw [Piece.field, renderPiece, h]
  rfl

theorem mapM_renderPieces (h : ∀ x ∈ xs, renderPieces (f x :: levels) body = some (g x)) :
    (xs.map f).mapM (fun v => renderPieces (v :: levels) body) = some (xs.map g) := by
  induction xs with
  | nil => rfl
  | cons x xs ih =>
    obtain ⟨hx, hxs⟩ := List.forall_mem_cons.1 h
    rw [List.map_cons, List.mapM_cons, hx, ih hxs]
    rfl

/-- A body that renders for every item renders for the list. -/
theorem renderPiece_each (hlist : lookup levels path = some (.array (xs.map f)))
    (h : ∀ x ∈ xs, renderPieces (f x :: levels) body = some (g x)) :
    renderPiece levels (.each path body) = some (String.join (xs.map g)) := by
  have hitems := mapM_renderPieces h
  simp [renderPiece, hlist, items?, hitems]

theorem renderPiece_branch {v : Json} (h : lookup levels path = some v) :
    renderPiece levels (.branch path yes no) =
      if isTruthy v then renderPieces levels yes else renderPieces levels no := by
  simp [renderPiece, h]

/-- A body under a condition. -/
theorem renderPiece_whenSet {b : Bool} (h : lookup levels ⟨0, some key⟩ = some (.bool b))
    (hbody : renderPieces levels body = some text) :
    renderPiece levels (.whenSet key body) = some (if b then text else "") := by
  cases b with
  | true => simp [Piece.whenSet, renderPiece, h, isTruthy, hbody]
  | false => simp [Piece.whenSet, renderPiece, h, isTruthy, renderPieces]

end Template

namespace Declaration

open Template

variable {levels : List Json}

/-! ## Methods -/

/-- The comment on a parameter, if there is any text for it. -/
def parameterComment (description : Option String) : String :=
  match (description.filter hasText).map docText with
  | some text => if text.isEmpty then "" else String.join ["\t\t/** ", text, " */\n"]
  | none => ""

def parameterText (p : Parameter) : String :=
  String.join
    [parameterComment p.description, "\t\t", p.name, if !p.required then "?" else "", ": ",
     (p.type.filter fun t => !t.isEmpty).getD "string", ";\n"]

/-- The type of what a method takes. -/
def parametersText (ps : List Parameter) : String :=
  if ps.isEmpty then "any" else String.join ["\x7b\n", String.join (ps.map parameterText), "\t\x7d"]

/-- The signature of a method under a name. -/
def signatureText (t : Target) (controller : String) (e : Entity) (m : Method) (name : String) :
    String :=
  String.join
    ["\t/**\n\t * ", docText ((m.summary.filter hasText).getD name), "\n\t */\n\t", name,
     "(data?: ", parametersText (m.parameters.filter fun p => isLawful p.name.toList),
     "): Promise<", answerType t controller e m, ">;\n"]

/-- The comment on a parameter stands where its template has one. -/
theorem render_parameterComment (levels : List Json) (p : Parameter) :
    renderPiece (parameterContext p :: levels)
        (.whenSet "description" [.text "\t\t/** ", .field "description", .text " */\n"]) =
      some (parameterComment p.description) := by
  cases hd : p.description.filter hasText with
  | none =>
    have hlookup : lookup (parameterContext p :: levels) ⟨0, some "description"⟩ = some .null := by
      simp [parameterContext, hd, lookup, Json.member?, Assoc.get?]
    rw [Piece.whenSet, renderPiece_branch hlookup, parameterComment, hd]
    rfl
  | some d =>
    have hlookup : lookup (parameterContext p :: levels) ⟨0, some "description"⟩ =
        some (.string (docText d)) := by
      simp [parameterContext, hd, lookup, Json.member?, Assoc.get?]
    have hbody := renderPieces_cons (renderPiece_text "\t\t/** ") <|
      renderPieces_cons (renderPiece_field hlookup) <|
      renderPieces_cons (renderPiece_text " */\n") renderPieces_nil
    rw [Piece.whenSet, renderPiece_branch hlookup, parameterComment, hd]
    by_cases hempty : (docText d).isEmpty
    · simp [isTruthy, hempty, renderPieces]
    · simp only [isTruthy, hempty, Option.map_some]
      exact hbody

theorem render_parameter (levels : List Json) (p : Parameter) :
    renderPieces (parameterContext p :: levels) parameter = some (parameterText p) := by
  have hname : lookup (parameterContext p :: levels) ⟨0, some "name"⟩ = some (.string p.name) := by
    simp [parameterContext, lookup, Json.member?, Assoc.get?]
  have hoptional : lookup (parameterContext p :: levels) ⟨0, some "optional"⟩ =
      some (.bool !p.required) := by
    simp [parameterContext, lookup, Json.member?, Assoc.get?]
  have htype : lookup (parameterContext p :: levels) ⟨0, some "ts_type"⟩ =
      some (.string ((p.type.filter fun t => !t.isEmpty).getD "string")) := by
    simp [parameterContext, lookup, Json.member?, Assoc.get?]
  have hmark : renderPieces (parameterContext p :: levels) [.text "?"] = some "?" := rfl
  exact renderPieces_cons (render_parameterComment levels p) <|
    renderPieces_cons (renderPiece_text _) <| renderPieces_cons (renderPiece_field hname) <|
    renderPieces_cons (renderPiece_whenSet hoptional hmark) <|
    renderPieces_cons (renderPiece_text _) <| renderPieces_cons (renderPiece_field htype) <|
    renderPieces_cons (renderPiece_text _) renderPieces_nil

theorem render_parameters {ps : List Parameter}
    (hlist : lookup levels ⟨0, some "params"⟩ = some (.array (ps.map parameterContext))) :
    renderPiece levels
        (.branch ⟨0, some "params"⟩
          [.text "\x7b\n", .forEach "params" parameter, .text "\t\x7d"] [.text "any"]) =
      some (parametersText ps) := by
  have heach := renderPiece_each hlist fun p _ => render_parameter levels p
  rw [renderPiece_branch hlist]
  cases ps with
  | nil => rfl
  | cons p ps =>
    exact renderPieces_cons (renderPiece_text _) <| renderPieces_cons heach <|
      renderPieces_cons (renderPiece_text _) renderPieces_nil

theorem render_method (t : Target) (controller : String) (e : Entity) (levels : List Json)
    (m : Method) :
    renderPieces (methodContext t controller e m :: levels) method =
      some (signatureText t controller e m (ofChars (methodName m))) := by
  have hsummary : lookup (methodContext t controller e m :: levels) ⟨0, some "summary"⟩ =
      some (.string (docText ((m.summary.filter hasText).getD (ofChars (methodName m))))) := by
    simp [methodContext, lookup, Json.member?, Assoc.get?]
  have hname : lookup (methodContext t controller e m :: levels) ⟨0, some "name"⟩ =
      some (.string (ofChars (methodName m))) := by
    simp [methodContext, lookup, Json.member?, Assoc.get?]
  have hparameters : lookup (methodContext t controller e m :: levels) ⟨0, some "params"⟩ =
      some (.array ((m.parameters.filter fun p => isLawful p.name.toList).map parameterContext)) := by
    simp [methodContext, lookup, Json.member?, Assoc.get?]
  have hreturns : lookup (methodContext t controller e m :: levels) ⟨0, some "returns"⟩ =
      some (.string (answerType t controller e m)) := by
    simp [methodContext, lookup, Json.member?, Assoc.get?]
  exact renderPieces_cons (renderPiece_text _) <| renderPieces_cons (renderPiece_field hsummary) <|
    renderPieces_cons (renderPiece_text _) <| renderPieces_cons (renderPiece_field hname) <|
    renderPieces_cons (renderPiece_text _) <| renderPieces_cons (render_parameters hparameters) <|
    renderPieces_cons (renderPiece_text _) <| renderPieces_cons (renderPiece_field hreturns) <|
    renderPieces_cons (renderPiece_text _) renderPieces_nil

/-! ## The interface -/

/-- The methods that are declared, each with its name. -/
def namedMethods (e : Entity) : List (String × Method) :=
  (declaredMethods e).map fun m => (ofChars (methodName m), m)

/-- The members for the permissions of methods of those names. -/
def permissionsText (names : List String) : String :=
  String.join
    ["\t/**\n\t * Permission identifiers\n\t */\n\tpermission: \x7b ",
     String.join (names.map fun name => String.join [name, ": string; "]),
     " \x7d;\n\t/**\n\t * Permission state\n\t */\n\t_permission: \x7b ",
     String.join (names.map fun name => String.join [name, ": boolean; "]),
     " \x7d;\n\trequest: Request;\n"]

/-- The interface of the controller of that name for an entity. -/
def controllerText (t : Target) (name : String) (e : Entity) : String :=
  String.join
    [exportWord t, "interface ", name, " \x7b\n",
     String.join ((namedMethods e).map fun x => signatureText t name e x.2 x.1),
     if !t.isCrossPlatform then permissionsText (Text.distinct ((namedMethods e).map (·.1)))
     else "", "\x7d\n"]

/-- **Rendering the interface of a controller gives its text.** -/
theorem render_controller (t : Target) (name : String) (e : Entity) :
    Template.render Template.controller (controllerContext t name e) =
      .ok (controllerText t name e) := by
  have hword : lookup [controllerContext t name e] ⟨0, some "export_kw"⟩ =
      some (.string (exportWord t)) := by
    simp [controllerContext, lookup, Json.member?, Assoc.get?]
  have hname : lookup [controllerContext t name e] ⟨0, some "name"⟩ = some (.string name) := by
    simp [controllerContext, lookup, Json.member?, Assoc.get?]
  have hmethods : lookup [controllerContext t name e] ⟨0, some "methods"⟩ =
      some (.array ((declaredMethods e).map (methodContext t name e))) := by
    simp [controllerContext, lookup, Json.member?, Assoc.get?]
  have hflag : lookup [controllerContext t name e] ⟨0, some "with_permissions"⟩ =
      some (.bool !t.isCrossPlatform) := by
    simp [controllerContext, lookup, Json.member?, Assoc.get?]
  have hpermissions : lookup [controllerContext t name e] ⟨0, some "permissions"⟩ =
      some (.array ((Text.distinct ((namedMethods e).map (·.1))).map .string)) := by
    have hnames : (namedMethods e).map (·.1) =
        (declaredMethods e).map fun m => ofChars (methodName m) := List.map_map
    rw [hnames]
    simp [controllerContext, lookup, Json.member?, Assoc.get?, Json.ofStrings]
  have hsignatures : renderPiece [controllerContext t name e] (.forEach "methods" method) =
      some (String.join ((namedMethods e).map fun x => signatureText t name e x.2 x.1)) := by
    simp only [namedMethods, List.map_map, Function.comp_def]
    exact renderPiece_each hmethods fun m _ => render_method t name e _ m
  have hnames : ∀ text : String, renderPiece [controllerContext t name e]
      (.forEach "permissions" [.value ⟨0, none⟩, .text text]) =
      some (String.join ((Text.distinct ((namedMethods e).map (·.1))).map fun name =>
        String.join [name, text])) :=
    fun text => renderPiece_each hpermissions fun _ _ =>
      renderPieces_cons rfl <| renderPieces_cons (renderPiece_text text) renderPieces_nil
  have hmembers : renderPieces [controllerContext t name e] permissions =
      some (permissionsText (Text.distinct ((namedMethods e).map (·.1)))) :=
    renderPieces_cons (renderPiece_text _) <| renderPieces_cons (hnames ": string; ") <|
    renderPieces_cons (renderPiece_text _) <| renderPieces_cons (hnames ": boolean; ") <|
    renderPieces_cons (renderPiece_text _) renderPieces_nil
  have hpieces : renderPieces [controllerContext t name e] controller =
      some (controllerText t name e) :=
    renderPieces_cons (renderPiece_field hword) <| renderPieces_cons (renderPiece_text _) <|
    renderPieces_cons (renderPiece_field hname) <| renderPieces_cons (renderPiece_text _) <|
    renderPieces_cons hsignatures <|
    renderPieces_cons (renderPiece_whenSet hflag hmembers) <|
    renderPieces_cons (renderPiece_text _) renderPieces_nil
  rw [Template.render, hpieces]

end Declaration

end ClientBuild
