import ClientBuild.Declaration.ServiceObject
import ClientBuild.Proofs.Declaration.Controller
import ClientBuild.Proofs.Text.Distinct

/-!
# Declarations and service object have the same parts

The type of the service and the service object are made by two walks over the tree of routes.  Both
enter the same nodes, skip the same and reach the same leaves: `partsOfNodes` says once which, and
either walk renders those parts (`walkNodes_eq`, `ofNodes_eq`).  The service object leaves out the
nodes of the key `swagger` besides, so that trees with one are not spoken of.
-/

namespace ClientBuild

namespace Declaration

/-! ## Parts -/

/-- What is rendered for a node. -/
inductive Part where
  /-- A key with the controller of an entity. -/
  | leaf (key : String) (controller : Controller)
  /-- A key with the interface that has what is below it. -/
  | group (key type : String) (parts : List Part)

mutual

/-- The part of a node: those without a lawful name and leaves without an entity have none. -/
def part? (es : List Entity) (above : List Char) (key : String) : RouteNode → Option Part
  | ⟨route, _, _, _, children⟩ =>
    let name := nodeName above key
    let keyName := ofChars (plainName key.toList)
    if !isLawful name then none
    else
      match route with
      | some r => (entityAt? es r).map fun e => .leaf keyName ⟨ofChars name, e⟩
      | none =>
        some (.group keyName (ofChars (interfaceName key.toList)) (parts es name children))

/-- The parts of the nodes of a level. -/
def parts (es : List Entity) (above : List Char) : List (String × RouteNode) → List Part
  | [] => []
  | (key, n) :: ns =>
    match part? es above key n with
    | some p => p :: parts es above ns
    | none => parts es above ns

end

mutual

/-- The lines of the service type for a part. -/
def Part.chain : Part → String
  | .leaf key c => key ++ ": " ++ c.name ++ ";\n"
  | .group key _ parts => key ++ ": \x7b\n" ++ chains parts ++ "\x7d;\n"

def chains : List Part → String
  | [] => ""
  | p :: ps => p.chain ++ chains ps

end

/-- The method of a leaf of the service object under a name. -/
def implementationText (route : String) (m : Method) (name : String) : String :=
  let summary := (m.summary.filter fun s => !s.isEmpty).getD name
  "/**\n * " ++ summary ++ "\n */\n" ++ name ++ "(data?: any): Promise<any> \x7b\n" ++
    "return request(\x7b\nurl: \"" ++ route ++ m.path ++ "\",\nmethod: \"" ++
    ServiceObject.verbOf m ++ "\",\ndata,\n\x7d);\n\x7d,\n"

mutual

/-- The lines of the service object for a part. -/
def Part.literal : Part → String
  | .leaf key c =>
    key ++ ": \x7b\n" ++
      String.join ((namedMethods c.entity).map fun x => implementationText c.entity.route x.2 x.1) ++
      "\x7d as " ++ c.name ++ ",\n"
  | .group key type parts => key ++ ": \x7b\n" ++ literals parts ++ "\x7d as " ++ type ++ ",\n"

def literals : List Part → String
  | [] => ""
  | p :: ps => p.literal ++ literals ps

end

mutual

/-- The controllers of the leaves of a part. -/
def Part.controllers : Part → List Controller
  | .leaf _ c => [c]
  | .group _ _ parts => controllersOf parts

def controllersOf : List Part → List Controller
  | [] => []
  | p :: ps => p.controllers ++ controllersOf ps

end

mutual

/-- The types that the service object casts a part to, and those below it. -/
def Part.casts : Part → List String
  | .leaf _ c => [c.name]
  | .group _ type parts => castsOf parts ++ [type]

def castsOf : List Part → List String
  | [] => []
  | p :: ps => p.casts ++ castsOf ps

end

/-! ## The walk of the declarations -/

mutual

theorem walkNode_eq (es : List Entity) : ∀ (above : List Char) (key : String) (n : RouteNode),
    (walkNode es above key n).chain = ((part? es above key n).elim "" Part.chain) ∧
      (walkNode es above key n).controllers = (part? es above key n).elim [] Part.controllers
  | above, key, ⟨route, _, _, _, children⟩ => by
      simp only [walkNode, part?]
      split
      · exact ⟨rfl, rfl⟩
      · cases route with
        | none =>
          obtain ⟨hchain, hcontrollers⟩ := walkNodes_eq es (nodeName above key) children
          dsimp only
          rw [hchain, hcontrollers]
          exact ⟨rfl, rfl⟩
        | some r =>
          dsimp only
          cases entityAt? es r with
          | none => exact ⟨rfl, rfl⟩
          | some e => exact ⟨rfl, rfl⟩

theorem walkNodes_eq (es : List Entity) : ∀ (above : List Char) (ns : List (String × RouteNode)),
    (walkNodes es above ns).chain = chains (parts es above ns) ∧
      (walkNodes es above ns).controllers = controllersOf (parts es above ns)
  | _, [] => ⟨rfl, rfl⟩
  | above, (key, n) :: ns => by
      obtain ⟨hchain, hcontrollers⟩ := walkNode_eq es above key n
      obtain ⟨hchains, hrest⟩ := walkNodes_eq es above ns
      simp only [walkNodes, Walk.append, parts, hchain, hcontrollers, hchains, hrest]
      cases part? es above key n with
      | none => exact ⟨String.empty_append, rfl⟩
      | some p => exact ⟨rfl, rfl⟩

end

/-! ## The walk of the service object -/

mutual

/-- No node below has that key. -/
def LacksKey (key : String) : RouteNode → Prop
  | ⟨_, _, _, _, children⟩ => LacksKeys key children

def LacksKeys (key : String) : List (String × RouteNode) → Prop
  | [] => True
  | (k, n) :: ns => k ≠ key ∧ LacksKey key n ∧ LacksKeys key ns

end

theorem leaf_content (key name : String) (e : Entity) :
    (ServiceObject.leaf key name e).content = (Part.leaf key ⟨name, e⟩).literal := by
  have hmethods : (declaredMethods e).map (ServiceObject.methodText e.route) =
      (namedMethods e).map fun x => implementationText e.route x.2 x.1 := by
    rw [namedMethods, List.map_map]
    rfl
  rw [Part.literal, ← hmethods]
  rfl

theorem mem_types_leaf (key name : String) (e : Entity) :
    name ∈ (ServiceObject.leaf key name e).types :=
  List.mem_append_right _ (List.mem_singleton.2 rfl)

mutual

theorem ofNode_eq (es : List Entity) : ∀ (above : List Char) (key : String) (n : RouteNode),
    key ≠ "swagger" → LacksKey "swagger" n →
    (ServiceObject.ofNode es above key n).content = (part? es above key n).elim "" Part.literal ∧
      (part? es above key n).elim [] Part.casts ⊆ (ServiceObject.ofNode es above key n).types
  | above, key, ⟨route, _, _, _, children⟩, hkey, hlacks => by
      have hskip : (key == "swagger") = false := by simpa using hkey
      simp only [ServiceObject.ofNode, part?, hskip, Bool.false_or]
      split
      · exact ⟨rfl, List.nil_subset _⟩
      · cases route with
        | none =>
          obtain ⟨hcontent, htypes⟩ := ofNodes_eq es (nodeName above key) children hlacks
          dsimp only
          rw [hcontent]
          refine ⟨rfl, fun type htype => ?_⟩
          rcases List.mem_append.1 htype with htype | htype
          · exact List.mem_append_left _ (htypes htype)
          · exact List.mem_append_right _ htype
        | some r =>
          dsimp only
          cases entityAt? es r with
          | none => exact ⟨rfl, List.nil_subset _⟩
          | some e =>
            refine ⟨leaf_content _ _ e, fun type htype => ?_⟩
            rw [List.mem_singleton.1 htype]
            exact mem_types_leaf _ _ e

theorem ofNodes_eq (es : List Entity) : ∀ (above : List Char) (ns : List (String × RouteNode)),
    LacksKeys "swagger" ns →
    (ServiceObject.ofNodes es above ns).content = literals (parts es above ns) ∧
      castsOf (parts es above ns) ⊆ (ServiceObject.ofNodes es above ns).types
  | _, [], _ => ⟨rfl, List.nil_subset _⟩
  | above, (key, n) :: ns, ⟨hkey, hn, hns⟩ => by
      obtain ⟨hcontent, htypes⟩ := ofNode_eq es above key n hkey hn
      obtain ⟨hcontents, hrest⟩ := ofNodes_eq es above ns hns
      simp only [ServiceObject.ofNodes, ServiceObject.append, parts, hcontent, hcontents]
      cases hpart : part? es above key n with
      | none => exact ⟨String.empty_append, List.subset_append_of_subset_right _ hrest⟩
      | some p =>
        rw [hpart] at htypes
        refine ⟨rfl, fun type htype => ?_⟩
        rcases List.mem_append.1 htype with htype | htype
        · exact List.mem_append_left _ (htypes htype)
        · exact List.mem_append_right _ (hrest htype)

end

/-! ## Agreement -/

theorem mapM_of_ok {ε α β : Type} {f : α → Except ε β} {g : α → β} {xs : List α} (h : ∀ x ∈ xs, f x = .ok (g x)) :
    xs.mapM f = .ok (xs.map g) := by
  induction xs with
  | nil => rfl
  | cons x xs ih =>
    obtain ⟨hx, hxs⟩ := List.forall_mem_cons.1 h
    rw [List.mapM_cons, hx, ih hxs]
    rfl

/-- The interfaces of controllers are always rendered. -/
theorem controllerTexts_eq (t : Target) (cs : List Controller) :
    controllerTexts t cs =
      .ok (String.join (cs.map fun c => controllerText t c.name c.entity ++ "\n")) := by
  have htexts : (cs.mapM fun c => Template.render Template.controller
      (controllerContext t c.name c.entity)) =
        .ok (cs.map fun c => controllerText t c.name c.entity) :=
    mapM_of_ok fun c _ => render_controller t c.name c.entity
  have hlines : (cs.map fun c => controllerText t c.name c.entity).map (· ++ "\n") =
      cs.map fun c => controllerText t c.name c.entity ++ "\n" := List.map_map
  rw [controllerTexts, htexts]
  exact congrArg (fun lines => Except.ok (String.join lines)) hlines

/-- **The declarations and the service object have the same parts.**  For any entities and any tree
without the key `swagger`, the lines of the service type, the interfaces of the controllers and the
service object are the renderings of the same parts in the same order: the same nodes under the same
keys, the same leaves with the same names of interfaces, and in both texts of a leaf the same methods
under the same names.  The types of the service object are named once each, and every type that it
casts a part to is among them. -/
theorem service_agrees (t : Target) (es : List Entity) (tree : RouteTree)
    (h : LacksKeys "swagger" tree) :
    let ps := parts es [] tree
    let walk := walkNodes es [] tree
    let service := ServiceObject.build tree es
    walk.chain = chains ps ∧
      controllerTexts t walk.controllers = .ok (String.join ((controllersOf ps).map fun c =>
        controllerText t c.name c.entity ++ "\n")) ∧
      service.content = "\x7b\n" ++ literals ps ++ "\x7d" ∧
      service.types.Nodup ∧ castsOf ps ⊆ service.types := by
  intro ps walk service
  obtain ⟨hchain, hcontrollers⟩ := walkNodes_eq es [] tree
  obtain ⟨hcontent, htypes⟩ := ofNodes_eq es [] tree h
  refine ⟨hchain, ?_, ?_, Text.nodup_distinct _, fun type htype => ?_⟩
  · rw [controllerTexts_eq, show walk.controllers = _ from hcontrollers]
  · rw [← hcontent]
    rfl
  · exact Text.mem_distinct.2 (htypes htype)

/-- An entity below two segments, with a method whose name is lawful and one whose is not. -/
def loginEntity : Entity where
  route := "/admin/base/login"
  name := "LoginEntity"
  methods := [{ path := "/check", method := "post" }, { path := "/\x7bid\x7d", method := "get" }]

/-- The tree of that entity. -/
def loginTree : RouteTree :=
  [("base", { children := [("login", { route := some "admin/base/login" })] })]

/-- The service object of that tree names the two types that it casts to. -/
theorem service_agrees_login :
    LacksKeys "swagger" loginTree ∧
      (ServiceObject.build loginTree [loginEntity]).types.Nodup ∧
      castsOf (parts [loginEntity] [] loginTree) = ["BaseLogin", "BaseInterface"] ∧
      castsOf (parts [loginEntity] [] loginTree) ⊆
        (ServiceObject.build loginTree [loginEntity]).types := by
  have hlacks : LacksKeys "swagger" loginTree :=
    ⟨by decide, ⟨by decide, trivial, trivial⟩, trivial⟩
  obtain ⟨_, _, _, hnodup, hcasts⟩ := service_agrees .admin [loginEntity] loginTree hlacks
  exact ⟨hlacks, hnodup, by decide, hcasts⟩

end Declaration

end ClientBuild
