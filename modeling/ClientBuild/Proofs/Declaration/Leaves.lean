import ClientBuild.Proofs.Declaration.Declared
import ClientBuild.Proofs.Declaration.Tree

/-!
# Methods in the interfaces of controllers

Which methods of an entity are declared depends on the leaf that its route leads to: the walk stops at
the first leaf on its way and declares there the methods of the entity that it finds under the route of
the leaf.  An entity that is found for its own leaf, with no other leaf above, has all its methods with
lawful names declared (`methods_declared`).  The methods of every other one disappear and no collision
tells it (`methods_disappear`).
-/

namespace ClientBuild.Declaration

open RouteTree

variable {es : List Entity}

/-! ## Walking to a leaf -/

/-- The name of the node at a path below a named node. -/
def pathName (above : List Char) (path : List String) : List Char := path.foldl nodeName above

theorem pathName_eq (above : List Char) (path : List String) :
    pathName above path = above ++ path.flatMap fun k => capitalize (plainName k.toList) := by
  induction path generalizing above with
  | nil => simp [pathName]
  | cons k path ih =>
    have hcons : pathName above (k :: path) = pathName (nodeName above k) path := rfl
    rw [hcons, ih, nodeName_eq, List.flatMap_cons, List.append_assoc]

theorem mem_walkNodes {key : String} {n : RouteNode} {above : List Char} {level : RouteTree}
    (h : Assoc.get? key level = some n) :
    (∀ c ∈ (walkNode es above key n).controllers, c ∈ (walkNodes es above level).controllers) ∧
      ∀ c ∈ (walkNode es above key n).collisions, c ∈ (walkNodes es above level).collisions := by
  induction level with
  | nil => cases h
  | cons p level ih =>
    obtain ⟨k, n'⟩ := p
    simp only [walkNodes, Walk.append, List.mem_append]
    rw [Assoc.get?_cons] at h
    split at h
    next hk =>
      subst hk
      cases h
      exact ⟨fun c => Or.inl, fun c => Or.inl⟩
    next =>
      obtain ⟨hcontrollers, hcollisions⟩ := ih h
      exact ⟨fun c hc => Or.inr (hcontrollers c hc), fun c hc => Or.inr (hcollisions c hc)⟩

theorem walkNode_leaf {key r : String} {n : RouteNode} {above : List Char} {d : Entity}
    (hlawful : isLawful (nodeName above key) = true) (hroute : n.route = some r)
    (hd : entityAt? es r = some d) :
    (walkNode es above key n).controllers = [⟨ofChars (nodeName above key), d⟩] := by
  obtain ⟨route, permission, search, methods, children⟩ := n
  cases hroute
  simp [walkNode, hlawful, hd]

theorem walkNode_group {key : String} {n : RouteNode} {above : List Char}
    (hlawful : isLawful (nodeName above key) = true) (hroute : n.route = none) :
    (walkNode es above key n).controllers =
      (walkNodes es (nodeName above key) n.children).controllers := by
  obtain ⟨route, permission, search, methods, children⟩ := n
  cases hroute
  simp [walkNode, hlawful]

theorem walkNode_unlawful {key : String} {n : RouteNode} {above : List Char}
    (hlawful : isLawful (nodeName above key) = false) :
    (walkNode es above key n).collisions = [⟨.illegalName, ofChars (nodeName above key), key⟩] := by
  obtain ⟨route, permission, search, methods, children⟩ := n
  simp [walkNode, hlawful]

/-- **A leaf with no other above it gets its controller**, if the names on the way are lawful. -/
theorem mem_walkNodes_of_routeAt {d : Entity} {r : String} (hd : entityAt? es r = some d) :
    ∀ {path : List String} {above : List Char} {level : RouteTree}, path ≠ [] →
      routeAt path level = some r →
      (∀ p, p ≠ [] → p <+: path → p ≠ path → routeAt p level = none) →
      (∀ p, p ≠ [] → p <+: path → isLawful (pathName above p) = true) →
      ⟨ofChars (pathName above path), d⟩ ∈ (walkNodes es above level).controllers
  | [], _, _, hpath, _, _, _ => absurd rfl hpath
  | [key], above, level, _, hroute, _, hlawful => by
    obtain ⟨n, hn, hroute⟩ := Option.bind_eq_some_iff.1 hroute
    refine (mem_walkNodes hn).1 _ ?_
    rw [walkNode_leaf (hlawful [key] (List.cons_ne_nil _ _) (List.prefix_refl _)) hroute hd]
    exact List.mem_singleton_self _
  | key :: k :: ks, above, level, _, hroute, habove, hlawful => by
    have hfirst : [key] <+: key :: k :: ks := ⟨k :: ks, rfl⟩
    obtain ⟨n, hn, hroute⟩ := Option.bind_eq_some_iff.1 hroute
    obtain ⟨m, hm, hn⟩ := Option.bind_eq_some_iff.1 hn
    have hgroup : m.route = none := by
      have := habove [key] (List.cons_ne_nil _ _) hfirst (by simp)
      rwa [routeAt_singleton, hm] at this
    have hchildren : ∀ p, p ≠ [] → routeAt (key :: p) level = routeAt p m.children := by
      intro p hp
      obtain ⟨k', p', rfl⟩ := List.exists_cons_of_ne_nil hp
      rw [routeAt_cons_cons, hm]
      rfl
    refine (mem_walkNodes hm).1 _ ?_
    rw [walkNode_group (hlawful [key] (List.cons_ne_nil _ _) hfirst) hgroup]
    refine mem_walkNodes_of_routeAt hd (List.cons_ne_nil k ks) (Option.bind_eq_some_iff.2 ⟨n, hn, hroute⟩)
      ?_ ?_
    · intro p hp hprefix hne
      rw [← hchildren p hp]
      exact habove (key :: p) (List.cons_ne_nil _ _) ((List.prefix_cons_inj key).2 hprefix)
        fun h => hne (List.cons.inj h).2
    · intro p hp hprefix
      exact hlawful (key :: p) (List.cons_ne_nil _ _) ((List.prefix_cons_inj key).2 hprefix)

/-! ## Lawful segments -/

/-- Below a first segment with a name every node has a lawful name. -/
theorem isLawful_pathName {first : String} {path : List String}
    (hfirst : plainName first.toList ≠ []) (h : ∀ s ∈ first :: path, isLawful s.toList = true) :
    isLawful (pathName [] (first :: path)) = true := by
  rw [pathName_eq, List.nil_append, isLawful_iff]
  constructor
  · rw [List.flatMap_cons]
    exact fun hnil => raiseFrom_ne_nil hfirst (List.append_eq_nil_iff.1 hnil).1
  · intro c hc
    obtain ⟨s, hs, hc⟩ := List.mem_flatMap.1 hc
    rcases mem_of_mem_raiseFrom hc with hc | hc
    · exact (isLawful_iff.1 (h s hs)).2 c (List.mem_filter.1 hc).1
    · have hname := isNameChar_of_word hc
      exact ⟨hname.2.1, hname.2.2, hname.ne (by decide)⟩

/-! ## The block of a controller -/

/-- What stands in front of the parameters of a method: the end of its comment and its name. -/
def methodLine (method : List Char) : List Char :=
  '/' :: ("\n\t".toList ++ method ++ "(data?: ".toList)

/-- The line of a method in a controller stays, wherever it stands in a text. -/
theorem interfacesToTypes_method {method : List Char} (hmethod : IsName method) (b : List Char) :
    interfacesToTypes (methodLine method ++ b) =
      methodLine method ++ interfacesToTypes b := by
  have hsplit : ∀ b, methodLine method ++ b =
      "/\n\t".toList ++ (method ++ '(' :: ("data?: ".toList ++ b)) := by simp [methodLine]
  rw [hsplit, hsplit, interfacesToTypes_append_of_not_mem (by decide),
    interfacesToTypes_name hmethod.2 (by decide) _ (Or.inl (by decide)),
    interfacesToTypes_cons_of_ne (by decide), interfacesToTypes_append_of_not_mem (by decide)]

theorem infix_of_rewrittenTo {c : Char} {a b d y : List Char} (hhead : ¬ IsHeadChar c) (hopen : c ≠ '{')
    (hclose : '}' ∉ c :: d)
    (hkeep : interfacesToTypes (c :: d ++ b) = c :: d ++ interfacesToTypes b)
    (h : RewrittenTo (a ++ (c :: d ++ b)) y) : c :: d <:+: y := by
  have hwhole : ∀ a, c :: d <:+: interfacesToTypes (a ++ (c :: d ++ b)) := by
    intro a
    obtain ⟨x, z, hxz, _, _⟩ := exists_of_divider hhead hopen hclose hkeep a
    exact ⟨x, z, by rw [hxz, List.append_assoc]⟩
  rcases h with rfl | ⟨body, rest, hbody, hsplit, rfl⟩
  · exact hwhole a
  · by_cases hmem : '}' ∈ a
    · obtain ⟨body', a', rfl, hbody'⟩ := List.eq_append_cons_of_mem hmem
      rw [List.append_assoc, List.cons_append] at hsplit
      obtain ⟨rfl, rfl⟩ := eq_of_append_cons_eq hbody' hbody hsplit
      exact (hwhole a').trans ⟨body' ++ ['}'], [], by simp⟩
    · obtain ⟨b', rfl⟩ := prefix_of_not_mem (p := a ++ c :: d) (a := body) (b := rest)
        (fun h => (List.mem_append.1 h).elim hmem hclose) ⟨b, by rw [← hsplit]; simp⟩
      exact ⟨a, b' ++ '}' :: interfacesToTypes rest, by simp⟩

/-- Does the text declare the method in the interface, or the type, of a controller?  The block is
what the target makes of the controller of an entity; it begins a line, with the name of the
controller, and the signature of the method stands in it. -/
def DeclaresMethod (t : Target) (text : List Char) (controller : String) (e : Entity)
    (method : List Char) : Prop :=
  ∃ before opening rest after, text = before ++ (opening ++ rest) ++ after ∧
    (before = [] ∨ ∃ x, before = x ++ ['\n']) ∧
    opening ++ rest = form t (controllerText t controller e).toList ∧
    Opens (exportWord t).toList controller.toList opening ∧
    '\t' :: (method ++ "(data?: ".toList) <:+: rest

/-- A declared method has its name in the text. -/
theorem DeclaresMethod.subset {text method : List Char} {controller : String} {e : Entity}
    (h : DeclaresMethod t text controller e method) : method ⊆ text := by
  obtain ⟨before, opening, rest, after, rfl, _, _, _, x, y, rfl⟩ := h
  intro c hc
  simp [hc]

theorem exists_signatureText_eq (t : Target) (controller : String) (e : Entity) (m : Method) :
    ∃ a b, (signatureText t controller e m (ofChars (methodName m))).toList =
      a ++ (methodLine (methodName m) ++ b) := by
  refine ⟨"\t/**\n\t * ".toList ++
      (docText ((m.summary.filter hasText).getD (ofChars (methodName m)))).toList ++ "\n\t *".toList,
    (String.join [parametersText (m.parameters.filter fun p => isLawful p.name.toList),
      "): Promise<", answerType t controller e m, ">;\n"]).toList, ?_⟩
  simp [methodLine, signatureText, String.join_cons, ofChars]

theorem exists_signatures_eq (t : Target) (controller : String) {e : Entity} {m : Method}
    (hm : m ∈ declaredMethods e) :
    ∃ a b, (String.join ((namedMethods e).map fun x => signatureText t controller e x.2 x.1)).toList =
      a ++ (methodLine (methodName m) ++ b) := by
  obtain ⟨x, y, hxy⟩ := exists_signatureText_eq t controller e m
  obtain ⟨before, after, hmethods⟩ := List.append_of_mem
    (List.mem_map_of_mem (f := fun m => (ofChars (methodName m), m)) hm)
  rw [namedMethods, hmethods, List.map_append, List.map_cons, String.join_append, String.join_cons,
    String.toList_append, String.toList_append, hxy]
  generalize (String.join (before.map _)).toList = front
  generalize (String.join (after.map _)).toList = back
  exact ⟨front ++ x, y ++ back, by simp⟩

/-- Where a method stands in the interface of a controller. -/
theorem exists_controllerText_eq (t : Target) (controller : String) {e : Entity} {m : Method}
    (hm : m ∈ declaredMethods e) :
    ∃ a b, '}' ∈ b ∧ (controllerText t controller e).toList =
      (exportWord t).toList ++ "interface ".toList ++ controller.toList ++ " \x7b".toList ++
        (a ++ (methodLine (methodName m) ++ b)) := by
  obtain ⟨x, y, hxy⟩ := exists_signatures_eq t controller hm
  refine ⟨'\n' :: x, y ++ ((if !t.isCrossPlatform then
    permissionsText (Text.distinct ((namedMethods e).map (·.1))) else "").toList ++ "\x7d\n".toList),
    by simp, ?_⟩
  simp only [controllerText, String.join_cons, String.join_nil, String.toList_append,
    String.append_empty, hxy]
  simp

theorem exists_of_controllerText (t : Target) {controller : String} {e : Entity} {m : Method}
    (hname : IsName controller.toList) (hm : m ∈ declaredMethods e) :
    ∃ opening rest, form t (controllerText t controller e).toList = opening ++ rest ∧
      Opens (exportWord t).toList controller.toList opening ∧
      '\t' :: (methodName m ++ "(data?: ".toList) <:+: rest := by
  have hmethod := isName_methodName hm
  have hline : '\t' :: (methodName m ++ "(data?: ".toList) <:+: methodLine (methodName m) :=
    ⟨['/', '\n'], [], by simp [methodLine]⟩
  obtain ⟨a, b, hb, htext⟩ := exists_controllerText_eq t controller hm
  rw [form]
  split
  next ht =>
    have hword : (exportWord t).toList = "export ".toList := by rw [exportWord, if_pos ht]
    obtain ⟨opening, y, hopens, hy, hform⟩ := exists_opening hname
      (List.mem_append_right a (List.mem_append_right (methodLine (methodName m)) hb))
    refine ⟨opening, y, ?_, hword ▸ hopens, hline.trans ?_⟩
    · rw [htext, hword, ← hform]
      rfl
    · exact infix_of_rewrittenTo (by decide) (by decide)
        (by simp [hmethod.not_mem not_isNameChar_close]) (interfacesToTypes_method hmethod b) hy
  next =>
    exact ⟨_, _, htext, Or.inl rfl, hline.trans ⟨a, b, by simp⟩⟩

/-! ## Declared methods -/

variable {t : Target} {types : TypeMap} {namespaceId : String} {dictKeys : Option (List String)}

/-- The entity that the leaf of an entity is declared for: the one that is looked up under the route
of the first entity there. -/
def leafEntity? (namespaceId : String) (es : List Entity) (e : Entity) : Option Entity :=
  (es.find? fun d => segmentsOf namespaceId d == segmentsOf namespaceId e).bind fun d =>
    entityAt? es (String.ofList (pathOf d))

/-- The declarations in front of the service type, each in the form of the target, and the
collisions of the walk. -/
theorem exists_synthesize_pieces {tree : RouteTree}
    (h : t.isCrossPlatform = true → HeaderFree types es tree dictKeys) :
    ∃ out front back, synthesize t types es tree dictKeys = .ok out ∧
      out.text.toList = front ++
        ((leadTexts t types es tree dictKeys).map fun s => form t s.toList).flatten ++ back ∧
      (front = [] ∨ ∃ x, front = x ++ ['\n']) ∧
      ∀ c ∈ (walkNodes es [] tree).collisions, c ∈ out.collisions := by
  cases ht : t.isCrossPlatform with
  | true =>
    cases t with
    | uniappX =>
      obtain ⟨_, _, out, _, _, hok, hcollisions, htext⟩ := exists_pieces (h rfl)
      refine ⟨out, [], _, hok, htext, Or.inl rfl, fun c hc => ?_⟩
      rw [hcollisions]
      exact List.mem_append_left _ (List.mem_append_right _ hc)
    | admin => cases ht
    | app => cases ht
  | false =>
    obtain ⟨out, hok, hcollisions, htext⟩ :=
      @synthesize_ambient types es tree dictKeys t ht
    have hform : ((leadTexts t types es tree dictKeys).map fun s => form t s.toList) =
        (leadTexts t types es tree dictKeys).map String.toList :=
      List.map_congr_left fun s _ => by simp [form, ht]
    rw [← hform] at htext
    refine ⟨out, _, _, hok, htext, Or.inr ⟨"declare namespace Eps \x7b".toList, rfl⟩, fun c hc => ?_⟩
    rw [hcollisions]
    exact List.mem_append_right _ hc

/-- **A controller that the walk finds has its block in the text**, with all its methods. -/
theorem declaresMethod_of_mem_controllers {tree : RouteTree} {c : Controller} {m : Method}
    (hc : c ∈ (walkNodes es [] tree).controllers) (hm : m ∈ declaredMethods c.entity)
    {front : List Char} (hfront : front = [] ∨ ∃ x, front = x ++ ['\n']) (back : List Char) :
    DeclaresMethod t
      (front ++ ((leadTexts t types es tree dictKeys).map fun s => form t s.toList).flatten ++ back)
      c.name c.entity (methodName m) := by
  obtain ⟨opening, rest, hform, hopens, hline⟩ :=
    exists_of_controllerText t (isName_controller hc) hm
  have hmem : controllerText t c.name c.entity ++ "\n" ∈ leadTexts t types es tree dictKeys :=
    List.mem_append_right _ (List.mem_map_of_mem hc)
  have hpiece : form t (controllerText t c.name c.entity ++ "\n").toList = opening ++ rest ++ ['\n'] := by
    rw [String.toList_append, form_append (closed_controllerText hc) (by decide), hform]
    rfl
  obtain ⟨before, after, hsplit, hbefore⟩ := exists_split_leadTexts hmem hfront back
  refine ⟨before, opening, rest, '\n' :: after, ?_, hbefore, hform.symm, hopens, hline⟩
  rw [hsplit, hpiece]
  simp only [List.append_assoc, List.cons_append, List.nil_append]

/-- **The methods of a leaf are declared.**  Let the segments of an entity be lawful, no other
entity be bound above its leaf, and `d` be the entity that the leaf is declared for.  Then the methods
of the entity that `d` has as well stand in the controller of the leaf; where `d` is the entity itself,
these are all with a lawful name.  Only a first segment of which no name is left has no controller, and
a collision tells it. -/
theorem methods_declared
    (hheader : t.isCrossPlatform = true →
      HeaderFree types es (RouteTree.build namespaceId es) dictKeys)
    {e d : Entity} {first : String} {rest : List String}
    (hsegments : segmentsOf namespaceId e = first :: rest)
    (hlawful : ∀ s ∈ segmentsOf namespaceId e, isLawful s.toList = true)
    (habove : ∀ e' ∈ es, segmentsOf namespaceId e' ≠ [] →
      segmentsOf namespaceId e' <+: segmentsOf namespaceId e →
      segmentsOf namespaceId e' = segmentsOf namespaceId e)
    (hleaf : leafEntity? namespaceId es e = some d) :
    ∃ out, synthesize t types es (RouteTree.build namespaceId es) dictKeys = .ok out ∧
      (⟨.illegalName, "", first⟩ ∈ out.collisions ∨
        ∀ m ∈ declaredMethods e, methodName m ∈ (declaredMethods d).map methodName →
          DeclaresMethod t out.text.toList
            (ofChars (pathName [] (segmentsOf namespaceId e))) d (methodName m)) := by
  obtain ⟨out, front, back, hok, htext, hfront, hcollisions⟩ := exists_synthesize_pieces hheader
  refine ⟨out, hok, ?_⟩
  have hne : segmentsOf namespaceId e ≠ [] := by simp [hsegments]
  obtain ⟨d', hd', hlookup⟩ := Option.bind_eq_some_iff.1 hleaf
  have hroute : routeAt (segmentsOf namespaceId e) (RouteTree.build namespaceId es) =
      some (String.ofList (pathOf d')) := by rw [routeAt_build namespaceId es hne, hd', Option.map_some]
  by_cases hfirst : plainName first.toList = []
  · -- The first node has no name to be declared under.
    have hname : nodeName [] first = [] := by rw [nodeName_eq, hfirst]; rfl
    obtain ⟨n, hn⟩ := exists_of_routeAt (hsegments ▸ hroute)
    refine Or.inl (hcollisions _ ((mem_walkNodes hn).2 _ ?_))
    rw [walkNode_unlawful (by rw [hname]; rfl), hname]
    exact List.mem_singleton_self _
  · refine Or.inr fun m hm hshared => ?_
    obtain ⟨m', hm', hsame⟩ := List.mem_map.1 hshared
    have hc : ⟨ofChars (pathName [] (segmentsOf namespaceId e)), d⟩ ∈
        (walkNodes es [] (RouteTree.build namespaceId es)).controllers := by
      refine mem_walkNodes_of_routeAt hlookup hne hroute ?_ ?_
      · intro p hp hprefix hproper
        rw [routeAt_build namespaceId es hp, Option.map_eq_none_iff, List.find?_eq_none]
        intro e' he' hp'
        have hp' : segmentsOf namespaceId e' = p := by simpa using hp'
        exact hproper (hp' ▸ habove e' he' (hp' ▸ hp) (hp' ▸ hprefix))
      · intro p hp hprefix
        rw [hsegments] at hprefix hlawful
        obtain ⟨k, p, rfl⟩ := List.exists_cons_of_ne_nil hp
        have hsubset := hprefix.subset
        obtain ⟨rfl, _⟩ := List.cons_prefix_cons.1 hprefix
        exact isLawful_pathName hfirst fun s hs => hlawful s (hsubset hs)
    rw [htext, ← hsame]
    exact declaresMethod_of_mem_controllers hc hm' hfront back

/-- An entity with one method. -/
def postEntity (route name path : String) : Entity where
  route := route
  name := name
  methods := [{ path, method := "post" }]

/-- The roles of users. -/
def roleEntity : Entity := postEntity "/app/user-role" "Role" "/remove"

/-- Two entities on leaves of their own. -/
def twoEntities : List Entity :=
  [postEntity "/app/user" "User" "/add", roleEntity]

theorem methods_declared_role :
    HeaderFree (.ofRules []) twoEntities (RouteTree.build "app" twoEntities) none ∧
      segmentsOf "app" roleEntity = ["userRole"] ∧
      leafEntity? "app" twoEntities roleEntity = some roleEntity ∧
      ∃ out, synthesize .uniappX (.ofRules []) twoEntities (RouteTree.build "app" twoEntities) none =
          .ok out ∧
        (⟨.illegalName, "", "userRole"⟩ ∈ out.collisions ∨
          ∀ m ∈ declaredMethods roleEntity,
            methodName m ∈ (declaredMethods roleEntity).map methodName →
              DeclaresMethod .uniappX out.text.toList
                (ofChars (pathName [] (segmentsOf "app" roleEntity))) roleEntity (methodName m)) := by
  have hfree : HeaderFree (.ofRules []) twoEntities (RouteTree.build "app" twoEntities) none := by
    unfold HeaderFree
    decide +kernel
  have hsegments : segmentsOf "app" roleEntity = ["userRole"] := by decide
  have hlawful : ∀ s ∈ segmentsOf "app" roleEntity, isLawful s.toList = true := by decide
  have habove : ∀ e ∈ twoEntities, segmentsOf "app" e ≠ [] →
      segmentsOf "app" e <+: segmentsOf "app" roleEntity →
      segmentsOf "app" e = segmentsOf "app" roleEntity := by
    decide
  have hleaf : leafEntity? "app" twoEntities roleEntity = some roleEntity := rfl
  exact ⟨hfree, hsegments, hleaf, methods_declared (fun _ => hfree) hsegments hlawful habove hleaf⟩

/-! ### Methods that disappear -/

/-- The bytes of a character are bytes of its text, which are looked through faster. -/
theorem byte_mem {s : String} {c : Char} {b : UInt8} (hb : b ∈ String.utf8EncodeChar c)
    (hc : c ∈ s.toList) : b ∈ s.toByteArray.data.toList := by
  rw [← String.utf8Encode_toList, List.utf8Encode, List.data_toByteArray]
  exact List.mem_flatMap.2 ⟨c, hc, hb⟩

/-- The users of an administration. -/
def userEntity : Entity := postEntity "/admin/user" "User" "/add"

/-- Entities that get no controller besides the one of the users: on their leaf, below it, with a
route that begins with no slash, and with a route that has no segments. -/
def hiddenEntities : List Entity :=
  [postEntity "/admin/user" "Role" "/undo2", postEntity "/admin/user/log" "Log" "/undo2",
    postEntity "admin/log" "Log" "/undo2", postEntity "/admin" "Root" "/undo2"]

theorem not_mem_texts_hidden : ∀ e ∈ hiddenEntities, ∀ s ∈ leadTexts .admin (.ofRules []) [userEntity, e]
    (RouteTree.build "admin" [userEntity, e]) none, 50 ∉ s.toByteArray.data.toList := by
  decide +kernel

theorem walkNodes_hidden : ∀ e ∈ hiddenEntities,
    let walk := walkNodes [userEntity, e] [] (RouteTree.build "admin" [userEntity, e])
    walk.chain = "user: User;\n" ∧ walk.collisions = [] ∧
      (declaredEntities [] [userEntity, e]).2 = [] := by
  decide +kernel

/-- The methods of hidden entities are nowhere in the declarations, and there are no collisions. -/
theorem exists_synthesize_hidden {e : Entity} (he : e ∈ hiddenEntities) :
    ∃ out, synthesize .admin (.ofRules []) [userEntity, e]
        (RouteTree.build "admin" [userEntity, e]) none = .ok out ∧
      out.collisions = [] ∧ '2' ∉ out.text.toList := by
  obtain ⟨hchain, hcollisions, hnames⟩ := walkNodes_hidden e he
  have hlead : ∀ s ∈ leadTexts .admin (.ofRules []) [userEntity, e]
      (RouteTree.build "admin" [userEntity, e]) none, '2' ∉ s.toList :=
    fun s hs hmem => not_mem_texts_hidden e he s hs (byte_mem (by decide) hmem)
  have hbytes : 50 ∉ (requestText .admin).toByteArray.data.toList := by decide +kernel
  have hrequest : '2' ∉ (requestText .admin).toList := fun h => hbytes (byte_mem (by decide) h)
  have hservice : '2' ∉ (serviceText .admin "user: User;\n").toList := by decide
  obtain ⟨out, hok, hout, htext⟩ := @synthesize_ambient (.ofRules []) [userEntity, e]
    (RouteTree.build "admin" [userEntity, e]) none .admin rfl
  refine ⟨out, hok, by rw [hout, hnames, hcollisions]; rfl, ?_⟩
  rw [htext, hchain]
  simp only [List.mem_append, List.mem_cons, List.mem_flatten, List.mem_map, not_or]
  refine ⟨⟨by decide, ?_⟩, by decide, ⟨hrequest, hservice⟩, by decide⟩
  rintro ⟨_, ⟨s, hs, rfl⟩, hmem⟩
  exact hlead s hs hmem

/-- An entity with a method and the header of the service type in a comment. -/
def headedEntity : Entity :=
  { agedEntity "export type Service = \x7b \x7d" with
    route := "/app/user"
    methods := [{ path := "/undo2", method := "post" }] }

theorem exists_synthesize_headed :
    ∃ out, synthesize .uniappX (.ofRules []) [headedEntity]
        (RouteTree.build "app" [headedEntity]) none = .ok out ∧
      out.collisions = [] ∧ '2' ∉ out.text.toList := by
  have hlawful : hasLawfulName headedEntity = true := by decide
  have hdeclared : declaredEntities [] [headedEntity] = ([headedEntity], []) := by
    simp [declaredEntities, hlawful]
  have hentity : (entityText .uniappX (.ofRules []) headedEntity).toList =
      "export interface A \x7b\n\t/**\n\t * ".toList ++ serviceHeader ++
        " \x7d\n\t */\n\tage?: number;\n\x7d\n".toList := by decide
  have hfirst : ¬ serviceHeader <:+: "export interface A \x7b\n\t/**\n\t * ".toList ++
      serviceHeader.dropLast := clear_of_contains (by decide)
  obtain ⟨rest, hplain⟩ : ∃ rest, (plainText .uniappX (.ofRules []) [headedEntity]
      (RouteTree.build "app" [headedEntity]) none).toList =
        "export interface A \x7b\n\t/**\n\t * ".toList ++ serviceHeader ++ (' ' :: '}' :: rest) := by
    simp only [plainText, leadTexts, entityPieces, hdeclared, List.map_cons, List.cons_append,
      String.join_cons, String.toList_append, hentity]
    exact ⟨_, by simp; rfl⟩
  have hbreak := Text.breakOn?_append (' ' :: '}' :: rest) hfirst
  have hcollisions : (walkNodes [headedEntity] [] (RouteTree.build "app" [headedEntity])).collisions = [] := by
    decide +kernel
  have hflat : flatten (plainText .uniappX (.ofRules []) [headedEntity]
      (RouteTree.build "app" [headedEntity]) none).toList =
      .ok ⟨"export interface A \x7b\n\t/**\n\t * ".toList ++ "\nexport type Service = \x7b ".toList ++ " \x7d".toList, []⟩ := by
    have hbraced : takeBraced? 0 ((' ' :: '}' :: rest).filter fun c => c != '\n' && c != '\t') =
        some ([' '], rest.filter fun c => c != '\n' && c != '\t') := by simp [takeBraced?]
    have hobjects : nestedObjects [] = .ok [] := rfl
    have hlevel : currentLevel [] = .ok [] := by rw [currentLevel, hobjects]; rfl
    have hshapes : collect [] {} = .ok {} := by rw [collect_eq, hobjects]; rfl
    rw [flatten, hplain, hbreak]
    dsimp only
    rw [hbraced]
    dsimp only
    rw [show Text.trim [' '] = [] from by decide, hlevel, hshapes]
    rfl
  rw [synthesize_eq_flatten, hflat, hdeclared, hcollisions]
  exact ⟨_, rfl, rfl, by decide⟩

/-- Do the methods of an entity with lawful segments stand in no controller, with no collision that
tells? -/
def Disappears (t : Target) (namespaceId : String) (es : List Entity) (e : Entity) : Prop :=
  (∀ s ∈ segmentsOf namespaceId e, isLawful s.toList = true) ∧
    ∃ out, synthesize t (.ofRules []) es (RouteTree.build namespaceId es) none = .ok out ∧
      out.collisions = [] ∧ ∃ m ∈ declaredMethods e, ∀ controller d,
        ¬ DeclaresMethod t out.text.toList controller d (methodName m)

/-- **Methods disappear silently** on a leaf that was bound before, below such a leaf, where the
route has no slash in front or no segments, and behind a header in a comment. -/
theorem methods_disappear :
    (∀ e ∈ hiddenEntities, Disappears .admin "admin" [userEntity, e] e) ∧
      Disappears .uniappX "app" [headedEntity] headedEntity := by
  have hmethods : ∀ e ∈ hiddenEntities, (∀ s ∈ segmentsOf "admin" e, isLawful s.toList = true) ∧
      ∃ m ∈ e.methods, isLawful (methodName m) = true ∧ '2' ∈ methodName m := by decide
  have hheaded : (∀ s ∈ segmentsOf "app" headedEntity, isLawful s.toList = true) ∧
      ∃ m ∈ headedEntity.methods, isLawful (methodName m) = true ∧ '2' ∈ methodName m := by
    decide
  constructor
  · intro e he
    obtain ⟨hlawful, m, hm, hname, hmem⟩ := hmethods e he
    obtain ⟨out, hok, hcollisions, hnot⟩ := exists_synthesize_hidden he
    exact ⟨hlawful, out, hok, hcollisions, m, List.mem_filter.2 ⟨hm, hname⟩,
      fun controller d h => hnot (h.subset hmem)⟩
  · obtain ⟨hlawful, m, hm, hname, hmem⟩ := hheaded
    obtain ⟨out, hok, hcollisions, hnot⟩ := exists_synthesize_headed
    exact ⟨hlawful, out, hok, hcollisions, m, List.mem_filter.2 ⟨hm, hname⟩,
      fun controller d h => hnot (h.subset hmem)⟩

end ClientBuild.Declaration
