import ClientBuild.Declaration.Synthesis
import ClientBuild.Proofs.Assoc

/-!
# What declarations are made of

Declarations use only a part of an entity: `Entity.bare` keeps the route, the name, and of columns
and methods what stands in a declaration.  Of the tree of routes they use the routes at the leaves
and the children, so the tree of bare entities does as well (`walkNodes_build_map`).  Together:
bare entities have the declarations of the entities (`synthesize_bare`).
-/

namespace ClientBuild

open Declaration

/-- What a declaration uses of a column. -/
def Column.bare (c : Column) : Column :=
  { propertyName := c.propertyName, type := c.type, source := c.source, comment := c.comment }

/-- What a declaration uses of a method. -/
def Method.bare (m : Method) : Method where
  path := m.path
  name := m.name
  summary := m.summary.filter hasText
  parameters := m.parameters.filter fun p => isLawful p.name.toList

/-- What a declaration uses of an entity. -/
def Entity.bare (e : Entity) : Entity where
  route := e.route
  name := e.name
  methods := e.methods.map Method.bare
  columns := e.columns.map Column.bare
  pageColumns := e.pageColumns.map Column.bare

namespace Declaration

/-! ## Entities -/

theorem firstPerSource_bare (cs : List Column) (seen : List String) :
    Entity.firstPerSource seen (cs.map Column.bare) =
      (Entity.firstPerSource seen cs).map Column.bare := by
  induction cs generalizing seen with
  | nil => rfl
  | cons c cs ih =>
    have hsource : c.bare.source = c.source := rfl
    simp only [List.map_cons, Entity.firstPerSource, hsource]
    split
    · exact ih seen
    · rw [ih (c.source :: seen)]
      rfl

theorem mergedColumns_bare (e : Entity) :
    e.bare.mergedColumns = e.mergedColumns.map Column.bare := by
  have hall : e.bare.allColumns = e.allColumns.map Column.bare := List.map_append.symm
  rw [Entity.mergedColumns, hall, firstPerSource_bare]
  rfl

theorem entityContext_bare (t : Target) (types : TypeMap) (e : Entity) :
    entityContext t types e.bare = entityContext t types e := by
  have hfields : e.bare.mergedColumns.map (fieldContext types) =
      e.mergedColumns.map (fieldContext types) := by
    rw [mergedColumns_bare, List.map_map]
    rfl
  unfold entityContext
  rw [hfields]
  rfl

theorem declaredEntities_bare (es : List Entity) (seen : List String) :
    declaredEntities seen (es.map Entity.bare) =
      ((declaredEntities seen es).1.map Entity.bare, (declaredEntities seen es).2) := by
  induction es generalizing seen with
  | nil => rfl
  | cons e es ih =>
    have hlawful : hasLawfulName e.bare = hasLawfulName e := rfl
    have hname : entityName e.bare = entityName e := rfl
    simp only [List.map_cons, declaredEntities, hlawful, hname]
    split
    · rw [ih seen]
      rfl
    · split
      · rw [ih seen]
        rfl
      · rw [ih (entityName e :: seen)]
        rfl

theorem entityTexts_bare (t : Target) (types : TypeMap) (es : List Entity) :
    entityTexts t types (es.map Entity.bare) = entityTexts t types es := by
  simp only [entityTexts, List.mapM_map, Function.comp_def, entityContext_bare]

/-! ## Methods -/

theorem methodName_bare (m : Method) : methodName m.bare = methodName m := rfl

theorem declaredMethods_bare (e : Entity) :
    declaredMethods e.bare = (declaredMethods e).map Method.bare := by
  simp only [declaredMethods, Entity.bare, List.filter_map, Function.comp_def, methodName_bare]

theorem filter_filter_self {α : Type} (p : α → Bool) (o : Option α) :
    (o.filter p).filter p = o.filter p := by
  rw [Option.filter_filter]
  simp

theorem methodContext_bare (t : Target) (controller : String) (e : Entity) (m : Method) :
    methodContext t controller e.bare m.bare = methodContext t controller e m := by
  have hsummary : m.bare.summary.filter hasText = m.summary.filter hasText :=
    filter_filter_self hasText m.summary
  have hparameters : (m.bare.parameters.filter fun p => isLawful p.name.toList) =
      m.parameters.filter fun p => isLawful p.name.toList := by
    simp [Method.bare, List.filter_filter]
  simp only [methodContext, hsummary, hparameters]
  rfl

theorem methodCollisions_bare (e : Entity) : methodCollisions e.bare = methodCollisions e := by
  simp only [methodCollisions, Entity.bare, List.filterMap_map, Function.comp_def, methodName_bare]
  rfl

theorem controllerContext_bare (t : Target) (controller : String) (e : Entity) :
    controllerContext t controller e.bare = controllerContext t controller e := by
  simp only [controllerContext, declaredMethods_bare, List.map_map, Function.comp_def,
    methodContext_bare, methodName_bare]

theorem pageTypes_bare (controller : String) (e : Entity) :
    pageTypes controller e.bare = pageTypes controller e := by
  simp only [pageTypes, declaredMethods_bare, List.filterMap_map, Function.comp_def]
  rfl

/-! ## Walking the tree -/

/-- What a walk finds, with other entities in the controllers. -/
def Walk.mapEntities (f : Entity → Entity) (w : Walk) : Walk :=
  { w with controllers := w.controllers.map fun c => ⟨c.name, f c.entity⟩ }

theorem mapEntities_append (f : Entity → Entity) (v w : Walk) :
    (v.append w).mapEntities f = (v.mapEntities f).append (w.mapEntities f) := by
  simp only [Walk.mapEntities, Walk.append, List.map_append]

theorem entityAt?_map {f : Entity → Entity} (hroute : ∀ e, (f e).route = e.route)
    (es : List Entity) (route : String) :
    entityAt? (es.map f) route = (entityAt? es route).map f := by
  simp only [entityAt?, List.find?_map, Function.comp_def, hroute]

mutual

/-- Walking the tree finds the same with other entities of the same routes. -/
theorem walkNode_map {f : Entity → Entity} (hroute : ∀ e, (f e).route = e.route)
    (hcollisions : ∀ e, methodCollisions (f e) = methodCollisions e) (es : List Entity) :
    ∀ (above : List Char) (key : String) (n : RouteNode),
    walkNode (es.map f) above key n = (walkNode es above key n).mapEntities f
  | above, key, ⟨route, _, _, _, children⟩ => by
      simp only [walkNode]
      split
      · rfl
      · cases route with
        | none =>
          simp only [walkNodes_map hroute hcollisions es]
          rfl
        | some r =>
          simp only [entityAt?_map hroute]
          cases entityAt? es r with
          | none => rfl
          | some e =>
            simp only [Option.map_some, hcollisions]
            rfl

theorem walkNodes_map {f : Entity → Entity} (hroute : ∀ e, (f e).route = e.route)
    (hcollisions : ∀ e, methodCollisions (f e) = methodCollisions e) (es : List Entity) :
    ∀ (above : List Char) (ns : List (String × RouteNode)),
    walkNodes (es.map f) above ns = (walkNodes es above ns).mapEntities f
  | _, [] => rfl
  | above, (key, n) :: ns => by
      simp only [walkNodes, walkNode_map hroute hcollisions es above key n,
        walkNodes_map hroute hcollisions es above ns, mapEntities_append]

end

/-! ## The tree -/

mutual

/-- What a walk uses of a node. -/
def outline : RouteNode → RouteNode
  | ⟨route, _, _, _, children⟩ => { route := route, children := outlines children }

/-- `outline` of every node of a level. -/
def outlines : List (String × RouteNode) → List (String × RouteNode)
  | [] => []
  | (key, n) :: ns => (key, outline n) :: outlines ns

end

mutual

theorem walkNode_outline (es : List Entity) : ∀ (above : List Char) (key : String)
    (n : RouteNode), walkNode es above key (outline n) = walkNode es above key n
  | above, key, ⟨route, _, _, _, children⟩ => by
      simp only [outline, walkNode, walkNodes_outlines es _ children]

theorem walkNodes_outlines (es : List Entity) : ∀ (above : List Char)
    (ns : List (String × RouteNode)), walkNodes es above (outlines ns) = walkNodes es above ns
  | _, [] => rfl
  | above, (key, n) :: ns => by
      simp only [outlines, walkNodes, walkNode_outline es above key n,
        walkNodes_outlines es above ns]

end

/-- Nodes whose outlines agree still do when both are changed in ways that agree on outlines. -/
theorem outlines_alter {key : String} {f f' : Option RouteNode → RouteNode}
    (hf : ∀ o o', o.map outline = o'.map outline → outline (f o) = outline (f' o')) :
    ∀ {ns ns' : RouteTree}, outlines ns = outlines ns' →
    outlines (Assoc.alter key f ns) = outlines (Assoc.alter key f' ns')
  | [], [], _ => by simp only [Assoc.alter, outlines, hf none none rfl]
  | [], (_, _) :: _, h => by cases h
  | (_, _) :: _, [], h => by cases h
  | (k, n) :: ns, (k', n') :: ns', h => by
      simp only [outlines, List.cons.injEq, Prod.mk.injEq] at h
      obtain ⟨⟨rfl, hn⟩, hns⟩ := h
      simp only [Assoc.alter]
      split
      · simp only [outlines, hf (some n) (some n') (congrArg some hn), hns]
      · simp only [outlines, hn, outlines_alter hf hns]

theorem outline_getD {o o' : Option RouteNode} (h : o.map outline = o'.map outline) :
    outline (o.getD {}) = outline (o'.getD {}) := by
  cases o with
  | none =>
    cases o' with
    | none => rfl
    | some n => cases h
  | some n =>
    cases o' with
    | none => cases h
    | some n' => exact Option.some.inj h

theorem outline_eq {n n' : RouteNode} (h : outline n = outline n') :
    n.route = n'.route ∧ outlines n.children = outlines n'.children := by
  cases n
  cases n'
  simp only [outline, RouteNode.mk.injEq] at h
  exact ⟨h.1, h.2.2.2.2⟩

theorem outline_bind {d e : Entity} (hroute : d.route = e.route) (namespaceId : String)
    {n n' : RouteNode} (h : outline n = outline n') :
    outline (RouteTree.bind namespaceId d n) = outline (RouteTree.bind namespaceId e n') := by
  obtain ⟨hleaf, hchildren⟩ := outline_eq h
  simp only [RouteTree.bind, outline, hleaf, hchildren, RouteTree.pathOf, hroute]

/-- Binding entities of the same route leaves the same outline. -/
theorem outlines_insertAt {d e : Entity} (hroute : d.route = e.route) (namespaceId : String) :
    ∀ (segments : List String) {ns ns' : RouteTree}, outlines ns = outlines ns' →
    outlines (RouteTree.insertAt namespaceId d segments ns) =
      outlines (RouteTree.insertAt namespaceId e segments ns')
  | [], _, _, h => h
  | [last], _, _, h => by
      simp only [RouteTree.insertAt]
      exact outlines_alter (fun _ _ ho => outline_bind hroute namespaceId (outline_getD ho)) h
  | s :: s' :: rest, _, _, h => by
      simp only [RouteTree.insertAt]
      refine outlines_alter (fun o o' ho => ?_) h
      obtain ⟨hleaf, hchildren⟩ := outline_eq (outline_getD ho)
      have ih := outlines_insertAt hroute namespaceId (s' :: rest) hchildren
      simp only [outline, hleaf, ih]

section

variable {f : Entity → Entity} (hroute : ∀ e, (f e).route = e.route)

include hroute

theorem outlines_build_map (namespaceId : String) (es : List Entity) :
    outlines (RouteTree.build namespaceId (es.map f)) =
      outlines (RouteTree.build namespaceId es) := by
  have hstep : ∀ (es : List Entity) {ns ns' : RouteTree}, outlines ns = outlines ns' →
      outlines ((es.map f).foldl (fun t e =>
        RouteTree.insertAt namespaceId e (RouteTree.segmentsOf namespaceId e) t) ns) =
      outlines (es.foldl (fun t e =>
        RouteTree.insertAt namespaceId e (RouteTree.segmentsOf namespaceId e) t) ns') := by
    intro es
    induction es with
    | nil => exact fun h => h
    | cons e es ih =>
      intro ns ns' h
      have hsegments : RouteTree.segmentsOf namespaceId (f e) =
          RouteTree.segmentsOf namespaceId e := by
        simp only [RouteTree.segmentsOf, RouteTree.pathOf, hroute]
      simp only [List.map_cons, List.foldl_cons, hsegments]
      exact ih (outlines_insertAt (hroute e) namespaceId _ h)
  exact hstep es rfl

/-- Walking the tree of other entities of the same routes finds the same. -/
theorem walkNodes_build_map (hcollisions : ∀ e, methodCollisions (f e) = methodCollisions e)
    (namespaceId : String) (es : List Entity) (above : List Char) :
    walkNodes (es.map f) above (RouteTree.build namespaceId (es.map f)) =
      (walkNodes es above (RouteTree.build namespaceId es)).mapEntities f := by
  rw [walkNodes_map hroute hcollisions, ← walkNodes_outlines es above (RouteTree.build _ (es.map f)),
    outlines_build_map hroute, walkNodes_outlines]

end

/-! ## Declarations -/

theorem controllerTexts_map {f : Entity → Entity} {t : Target}
    (hf : ∀ name e, controllerContext t name (f e) = controllerContext t name e)
    (cs : List Controller) :
    controllerTexts t (cs.map fun c => ⟨c.name, f c.entity⟩) = controllerTexts t cs := by
  simp only [controllerTexts, List.mapM_map, Function.comp_def, hf]

theorem synthesizePlain_bare (t : Target) (types : TypeMap) (namespaceId : String)
    (es : List Entity) (keys : Option (List String)) :
    synthesizePlain t types (es.map Entity.bare)
        (RouteTree.build namespaceId (es.map Entity.bare)) keys =
      synthesizePlain t types es (RouteTree.build namespaceId es) keys := by
  have hroute : ∀ e : Entity, e.bare.route = e.route := fun _ => rfl
  simp only [synthesizePlain, declaredEntities_bare, entityTexts_bare,
    walkNodes_build_map hroute methodCollisions_bare, Walk.mapEntities, List.flatMap_map,
    pageTypes_bare, controllerTexts_map (controllerContext_bare t)]

/-- **Bare entities have the declarations of the entities.** -/
theorem synthesize_bare (t : Target) (types : TypeMap) (namespaceId : String)
    (es : List Entity) (keys : Option (List String)) :
    synthesize t types (es.map Entity.bare) (RouteTree.build namespaceId (es.map Entity.bare))
        keys =
      synthesize t types es (RouteTree.build namespaceId es) keys := by
  rw [synthesize, synthesize, synthesizePlain_bare]

/-! ## The interfaces in the declarations -/

/-- The entity without its columns. -/
def withoutColumns (e : Entity) : Entity := { e with columns := [], pageColumns := [] }

theorem exists_of_bind_eq_ok {α β : Type} {x : Except Failure α} {f : α → Except Failure β} {b : β}
    (h : (x >>= f) = .ok b) : ∃ a, x = .ok a ∧ f a = .ok b := by
  cases x with
  | error e => cases h
  | ok a => exact ⟨a, rfl, h⟩

/-- Outside the cross-platform target the declarations stand in one namespace. -/
theorem exists_synthesizePlain {t : Target} (ht : t.isCrossPlatform = false) {types : TypeMap}
    {es : List Entity} {tree : RouteTree} {keys : Option (List String)} {out : Synthesized}
    (h : synthesize t types es tree keys = .ok out) :
    ∃ plain, synthesizePlain t types es tree keys = .ok plain ∧
      out.text = "declare namespace Eps \x7b\n" ++ plain.text ++ "\n\x7d\n" := by
  obtain ⟨plain, hplain, h⟩ := exists_of_bind_eq_ok h
  rw [ht] at h
  cases h
  exact ⟨plain, hplain, rfl⟩

/-- What is rendered for the declarations. -/
def declarationsContext (word : Json) (interfaces : String) (members : List (String × Json)) :
    Json :=
  .object (("export_kw", word) :: ("entities", .string interfaces) :: members)

open Template in
/-- What follows the interfaces does not depend on them. -/
theorem renderPieces_tail (word : Json) (members : List (String × Json)) (a b : String) :
    renderPieces [declarationsContext word a members] declarations.tail =
      renderPieces [declarationsContext word b members] declarations.tail := by
  simp [declarationsContext, declarations, indexSignature, pageResponse, requestTypes,
    Piece.whenSet, Piece.forEach, Piece.field, renderPieces, renderPiece, lookup, Json.member?]

open Template in
/-- Declarations that agree in all but the interfaces have the same text only if these agree too. -/
theorem interfaces_eq_of_render {word : Json} {members : List (String × Json)} {a b text : String}
    (ha : render declarations (declarationsContext word a members) = .ok text)
    (hb : render declarations (declarationsContext word b members) = .ok text) : a = b := by
  have hcons : ∀ x, renderPieces [declarationsContext word x members] declarations =
      (renderPieces [declarationsContext word a members] declarations.tail).map (x ++ ·) := by
    intro x
    have hhead : renderPiece [declarationsContext word x members] (.field "entities") = some x := by
      simp [declarationsContext, Piece.field, renderPiece, lookup, Json.member?, plain]
    have hpieces : renderPieces [declarationsContext word x members] declarations =
        (renderPiece [declarationsContext word x members] (.field "entities")).bind fun t =>
          (renderPieces [declarationsContext word x members] declarations.tail).bind fun ts =>
            some (t ++ ts) := rfl
    rw [hpieces, hhead, renderPieces_tail word members x a]
    cases renderPieces [declarationsContext word a members] declarations.tail with
    | none => rfl
    | some tail => rfl
  simp only [render, hcons] at ha hb
  cases htail : renderPieces [declarationsContext word a members] declarations.tail with
  | none =>
    rw [htail] at ha
    cases ha
  | some tail =>
    rw [htail] at ha hb
    have htext : a ++ tail = b ++ tail := Except.ok.inj (ha.trans hb.symm)
    exact (String.append_left_inj tail).1 htext

/-- The declarations of entities differ from those of the same entities without columns unless the
interfaces are the same. -/
theorem entityTexts_eq_of_synthesizePlain {t : Target} {types : TypeMap} {namespaceId : String}
    {es : List Entity} {keys : Option (List String)} {out out' : Synthesized}
    (h : synthesizePlain t types es (RouteTree.build namespaceId es) keys = .ok out)
    (h' : synthesizePlain t types (es.map withoutColumns)
      (RouteTree.build namespaceId (es.map withoutColumns)) keys = .ok out')
    (heq : out.text = out'.text) :
    entityTexts t types (declaredEntities [] es).1 =
      entityTexts t types (declaredEntities [] (es.map withoutColumns)).1 := by
  have hwalk := walkNodes_build_map (f := withoutColumns) (fun _ => rfl) (fun _ => rfl)
    namespaceId es []
  have hcontrollers := controllerTexts_map (f := withoutColumns) (t := t) (fun _ _ => rfl)
  have hpages : ∀ name e, pageTypes name (withoutColumns e) = pageTypes name e := fun _ _ => rfl
  simp only [synthesizePlain, hwalk, Walk.mapEntities, hcontrollers, List.flatMap_map,
    hpages] at h h'
  obtain ⟨a, ha, h⟩ := exists_of_bind_eq_ok h
  obtain ⟨controllers, hcs, h⟩ := exists_of_bind_eq_ok h
  obtain ⟨text, htext, h⟩ := exists_of_bind_eq_ok h
  obtain ⟨b, hb, h'⟩ := exists_of_bind_eq_ok h'
  obtain ⟨controllers', hcs', h'⟩ := exists_of_bind_eq_ok h'
  obtain ⟨text', htext', h'⟩ := exists_of_bind_eq_ok h'
  cases h
  cases h'
  cases hcs.symm.trans hcs'
  simp only at heq
  rw [← heq] at htext'
  rw [ha, hb, interfaces_eq_of_render htext htext']

end Declaration

end ClientBuild
