import ClientBuild.Proofs.Declaration.Tree
import Mathlib.Data.List.Induction

/-!
# The nodes of the tree of routes in closed form

The tree is built entity by entity, and each changes the nodes on its way.  What a node holds in the end is said
here by the list of entities alone (`Describes`): those with its path bind it, and those whose segments go on
behind its path give it children.  The induction is over the list from its end, and one more entity changes a
node in one of three ways (`nodeAt_build_concat`).
-/

namespace ClientBuild.RouteTree

variable {namespaceId : String} {es : List Entity} {path : List String}

/-! ## What the list of entities says of a node -/

/-- The entities that are bound to the node at a path, in order. -/
def boundTo (namespaceId : String) (es : List Entity) (path : List String) : List Entity :=
  es.filter fun e => segmentsOf namespaceId e == path

/-- The methods of an entity that a leaf holds, each with its key. -/
def keyedMethods (e : Entity) : List (String × Method) :=
  e.methods.filterMap fun m => (methodKey? m).map fun key => (key, m)

/-- The methods that are registered at a path, in order. -/
def registered (namespaceId : String) (es : List Entity) (path : List String) : List (String × Method) :=
  (boundTo namespaceId es path).flatMap keyedMethods

/-- The segment of an entity behind a path, if its segments properly extend the path. -/
def nextSegment? (namespaceId : String) (path : List String) (e : Entity) : Option String :=
  if path <+: segmentsOf namespaceId e then (segmentsOf namespaceId e)[path.length]? else none

/-- A node as the list of entities describes it. -/
structure Describes (namespaceId : String) (es : List Entity) (path : List String) (n : RouteNode) : Prop where
  /-- The first entity that is bound to the node gives it its route. -/
  route : n.route = (boundTo namespaceId es path).head?.map fun e => String.ofList (pathOf e)
  /-- The last entity that is bound to the node gives it its search groups. -/
  search : n.search = (boundTo namespaceId es path).getLast?.bind (·.search)
  /-- There is one entry for each key of a registered method, in order of first registration. -/
  methodKeys : Assoc.keys n.methods = Text.distinct ((registered namespaceId es path).map Prod.fst)
  /-- An entry holds the last method that is registered under its key. -/
  methods : ∀ key, Assoc.get? key n.methods = Assoc.get? key (registered namespaceId es path).reverse
  /-- The keys of the children are the segments behind the path, in order of first appearance. -/
  children : Assoc.keys n.children = Text.distinct (es.filterMap (nextSegment? namespaceId path))

/-! ## One more entity -/

theorem build_concat (namespaceId : String) (es : List Entity) (e : Entity) :
    build namespaceId (es ++ [e]) =
      insertAt namespaceId e (segmentsOf namespaceId e) (build namespaceId es) := List.foldl_append

/-- One more entity binds the node at its own segments, passes by the nodes above, and leaves the others. -/
theorem nodeAt_build_concat (hpath : path ≠ []) (e : Entity) :
    segmentsOf namespaceId e = path ∧
        nodeAt path (build namespaceId (es ++ [e])) = bind namespaceId e (nodeAt path (build namespaceId es)) ∨
      (∃ s rest, segmentsOf namespaceId e = path ++ s :: rest ∧
        nodeAt path (build namespaceId (es ++ [e])) =
          passed namespaceId e (s :: rest) (nodeAt path (build namespaceId es))) ∨
      ¬ path <+: segmentsOf namespaceId e ∧
        nodeAt path (build namespaceId (es ++ [e])) = nodeAt path (build namespaceId es) := by
  rw [build_concat, nodeAt_insertAt namespaceId e hpath]
  by_cases h : path <+: segmentsOf namespaceId e
  · rw [if_pos h]
    obtain ⟨rest, hrest⟩ := h
    rw [← hrest, List.drop_left]
    cases rest with
    | nil => exact Or.inl ⟨List.append_nil path, rfl⟩
    | cons s rest => exact Or.inr (Or.inl ⟨s, rest, rfl, rfl⟩)
  · exact Or.inr (Or.inr ⟨h, if_neg h⟩)

/-- What a leaf holds changes only for an entity that is bound to it. -/
theorem bound_build_concat (hpath : path ≠ []) (e : Entity) :
    segmentsOf namespaceId e = path ∧
        nodeAt path (build namespaceId (es ++ [e])) = bind namespaceId e (nodeAt path (build namespaceId es)) ∨
      segmentsOf namespaceId e ≠ path ∧
        (nodeAt path (build namespaceId (es ++ [e]))).search = (nodeAt path (build namespaceId es)).search ∧
        (nodeAt path (build namespaceId (es ++ [e]))).methods = (nodeAt path (build namespaceId es)).methods := by
  rcases nodeAt_build_concat hpath e with hbound | ⟨s, rest, hsplit, hnode⟩ | ⟨hoff, hnode⟩
  · exact Or.inl hbound
  · refine Or.inr ⟨by simp [hsplit], ?_⟩
    rw [hnode]
    exact ⟨rfl, rfl⟩
  · refine Or.inr ⟨fun heq => hoff (heq ▸ List.prefix_refl _), ?_⟩
    rw [hnode]
    exact ⟨rfl, rfl⟩

theorem boundTo_concat_of_eq {e : Entity} (h : segmentsOf namespaceId e = path) :
    boundTo namespaceId (es ++ [e]) path = boundTo namespaceId es path ++ [e] := by
  simp [boundTo, h]

theorem boundTo_concat_of_ne {e : Entity} (h : segmentsOf namespaceId e ≠ path) :
    boundTo namespaceId (es ++ [e]) path = boundTo namespaceId es path := by
  simp [boundTo, h]

theorem nextSegment?_of_eq {e : Entity} {s : String} {rest : List String}
    (h : segmentsOf namespaceId e = path ++ s :: rest) : nextSegment? namespaceId path e = some s := by
  rw [nextSegment?, h, if_pos (List.prefix_append path _), List.getElem?_append_right (Nat.le_refl _), Nat.sub_self]
  rfl

/-- An entity has no segment behind its own path. -/
theorem nextSegment?_self {e : Entity} (h : segmentsOf namespaceId e = path) :
    nextSegment? namespaceId path e = none := by
  rw [nextSegment?, h, if_pos (List.prefix_refl path), List.getElem?_eq_none (Nat.le_refl _)]

theorem filterMap_nextSegment?_of_none {e : Entity} (h : nextSegment? namespaceId path e = none) :
    (es ++ [e]).filterMap (nextSegment? namespaceId path) = es.filterMap (nextSegment? namespaceId path) := by
  rw [List.filterMap_append, List.filterMap_cons_none h, List.filterMap_nil, List.append_nil]

/-- Binding an entity inserts its methods. -/
theorem methods_bind (namespaceId : String) (e : Entity) (n : RouteNode) :
    (bind namespaceId e n).methods = Assoc.insertAll n.methods (keyedMethods e) := by
  simp only [bind, keyedMethods]
  generalize e.methods = ms
  generalize n.methods = held
  induction ms generalizing held with
  | nil => rfl
  | cons m ms ih =>
    rw [List.foldl_cons, ih]
    cases hkey : methodKey? m with
    | none => rw [List.filterMap_cons_none (by rw [hkey]; rfl)]
    | some key =>
      rw [List.filterMap_cons_some (b := (key, m)) (by rw [hkey]; rfl)]
      rfl

theorem keys_insertAt_cons (namespaceId : String) (e : Entity) (s : String) (rest : List String) (level : RouteTree) :
    Assoc.keys (insertAt namespaceId e (s :: rest) level) =
      if s ∈ Assoc.keys level then Assoc.keys level else Assoc.keys level ++ [s] := by
  rw [insertAt_cons, Assoc.keys_alter]

/-! ## The tree of a list -/

/-- The methods that a node holds are those that are registered at its path. -/
theorem methods_nodeAt_build (namespaceId : String) (es : List Entity) (hpath : path ≠ []) :
    (nodeAt path (build namespaceId es)).methods = Assoc.ofPairs (registered namespaceId es path) := by
  induction es using List.reverseRecOn with
  | nil => simp [build, nodeAt, registered, boundTo, Assoc.ofPairs]
  | append_singleton es e ih =>
    rcases bound_build_concat hpath e with ⟨heq, hnode⟩ | ⟨hne, -, hkept⟩
    · have hregistered : registered namespaceId (es ++ [e]) path =
          registered namespaceId es path ++ keyedMethods e := by
        rw [registered, boundTo_concat_of_eq heq, List.flatMap_append, List.flatMap_singleton, registered]
      rw [hnode, methods_bind, ih, hregistered]
      exact List.foldl_append.symm
    · rw [hkept, ih, registered, registered, boundTo_concat_of_ne hne]

theorem search_nodeAt_build (namespaceId : String) (es : List Entity) (hpath : path ≠ []) :
    (nodeAt path (build namespaceId es)).search = (boundTo namespaceId es path).getLast?.bind (·.search) := by
  induction es using List.reverseRecOn with
  | nil => simp [build, nodeAt, boundTo]
  | append_singleton es e ih =>
    rcases bound_build_concat hpath e with ⟨heq, hnode⟩ | ⟨hne, hkept, -⟩
    · rw [hnode, boundTo_concat_of_eq heq, List.getLast?_concat]
      rfl
    · rw [hkept, ih, boundTo_concat_of_ne hne]

theorem keys_children_nodeAt_build (namespaceId : String) (es : List Entity) (hpath : path ≠ []) :
    Assoc.keys (nodeAt path (build namespaceId es)).children =
      Text.distinct (es.filterMap (nextSegment? namespaceId path)) := by
  induction es using List.reverseRecOn with
  | nil => simp [build, nodeAt, Assoc.keys, Text.distinct, Text.dedupFrom]
  | append_singleton es e ih =>
    rcases nodeAt_build_concat hpath e with ⟨heq, hnode⟩ | ⟨s, rest, hsplit, hnode⟩ | ⟨hoff, hnode⟩
    · rw [hnode, filterMap_nextSegment?_of_none (nextSegment?_self heq)]
      exact ih
    · have hfound : (es ++ [e]).filterMap (nextSegment? namespaceId path) =
          es.filterMap (nextSegment? namespaceId path) ++ [s] := by
        rw [List.filterMap_append, List.filterMap_cons_some (nextSegment?_of_eq hsplit), List.filterMap_nil]
      rw [hnode, hfound, passed, keys_insertAt_cons, ih, Text.distinct_concat]
      simp only [Text.mem_distinct]
    · rw [hnode, filterMap_nextSegment?_of_none (if_neg hoff)]
      exact ih

/-- Every node of the tree is as the list of entities describes it. -/
theorem describes_nodeAt_build (namespaceId : String) (es : List Entity) (hpath : path ≠ []) :
    Describes namespaceId es path (nodeAt path (build namespaceId es)) where
  route := by rw [← routeAt_eq, routeAt_build namespaceId es hpath, boundTo, List.head?_filter]
  search := search_nodeAt_build namespaceId es hpath
  methodKeys := by rw [methods_nodeAt_build namespaceId es hpath, Assoc.keys_ofPairs]
  methods := fun key => by rw [methods_nodeAt_build namespaceId es hpath, Assoc.get?_ofPairs]
  children := keys_children_nodeAt_build namespaceId es hpath

/-- There is a node at a path exactly if the segments of some entity begin with it. -/
theorem isSome_get?_build (namespaceId : String) (es : List Entity) (hpath : path ≠ []) :
    (get? path (build namespaceId es)).isSome = true ↔ ∃ e ∈ es, path <+: segmentsOf namespaceId e := by
  induction es using List.reverseRecOn with
  | nil => simp [build]
  | append_singleton es e ih =>
    rw [build_concat, get?_insertAt namespaceId e hpath]
    split
    next h => exact ⟨fun _ => ⟨e, by simp, h⟩, fun _ => rfl⟩
    next h =>
      rw [ih]
      constructor
      · rintro ⟨d, hd, hfront⟩
        exact ⟨d, List.mem_append_left _ hd, hfront⟩
      · rintro ⟨d, hd, hfront⟩
        rcases List.mem_append.1 hd with hd | hd
        · exact ⟨d, hd, hfront⟩
        · rw [List.mem_singleton.1 hd] at hfront
          exact absurd hfront h

theorem Describes.isLeaf_iff {n : RouteNode} (h : Describes namespaceId es path n) :
    n.isLeaf = true ↔ ∃ e ∈ es, segmentsOf namespaceId e = path := by
  rw [RouteNode.isLeaf, h.route, Option.isSome_map, boundTo, List.head?_filter, List.find?_isSome]
  simp only [beq_iff_eq]

/-- **The tree is exactly the routes**: there is a node at a path exactly if the segments of some entity begin with
it, it is a leaf exactly if they are those of some entity, and then the list of entities describes what it holds. -/
theorem get?_build (namespaceId : String) (es : List Entity) {path : List String} (hpath : path ≠ []) :
    ((get? path (build namespaceId es)).isSome = true ↔ ∃ e ∈ es, path <+: segmentsOf namespaceId e) ∧
      ∀ n, get? path (build namespaceId es) = some n →
        (n.isLeaf = true ↔ ∃ e ∈ es, segmentsOf namespaceId e = path) ∧ Describes namespaceId es path n := by
  refine ⟨isSome_get?_build namespaceId es hpath, fun n hn => ?_⟩
  have hnode : nodeAt path (build namespaceId es) = n := by rw [nodeAt, hn, Option.getD_some]
  have hdescribes := describes_nodeAt_build namespaceId es hpath
  rw [hnode] at hdescribes
  exact ⟨hdescribes.isLeaf_iff, hdescribes⟩

/-- Users twice, with a route nested under theirs in between. -/
theorem get?_build_user :
    let path := ["base", "sysUser"]
    let user : Entity :=
      { route := "/admin/base/sys-user", methods := [{ path := "/add" }, { path := "/page" }], search := some {} }
    let extra : Entity := { route := "/admin/base/sys-user/extra" }
    let again : Entity := { route := "/base/admin/sys-user", methods := [{ path := "/page", summary := some "again" }] }
    path ≠ [] ∧ ∃ n, get? path (build "admin" [user, extra, again]) = some n ∧ n.isLeaf = true ∧
      n.route = some "admin/base/sys-user" ∧ n.search.isNone = true ∧ Assoc.keys n.methods = ["add", "page"] ∧
      (Assoc.get? "page" n.methods).bind (·.summary) = some "again" ∧ Assoc.keys n.children = ["extra"] := by
  intro path user extra again
  have hpath : path ≠ [] := List.cons_ne_nil _ _
  have huser : segmentsOf "admin" user = path := by decide +kernel
  have hextra : segmentsOf "admin" extra = path ++ ["extra"] := by decide +kernel
  have hagain : segmentsOf "admin" again = path := by decide +kernel
  obtain ⟨hnode, hdescribed⟩ := get?_build "admin" [user, extra, again] hpath
  have hfront : path <+: segmentsOf "admin" user := huser ▸ List.prefix_refl path
  obtain ⟨n, hn⟩ := Option.isSome_iff_exists.1 (hnode.2 ⟨user, List.mem_cons_self, hfront⟩)
  obtain ⟨hleaf, hn'⟩ := hdescribed n hn
  have hbound : boundTo "admin" [user, extra, again] path = [user, again] := by
    simp [boundTo, huser, hextra, hagain]
  have hregistered : registered "admin" [user, extra, again] path =
      [("add", { path := "/add" }), ("page", { path := "/page" }),
        ("page", { path := "/page", summary := some "again" })] := by
    rw [registered, hbound]
    rfl
  refine ⟨hpath, n, hn, hleaf.2 ⟨user, List.mem_cons_self, huser⟩, ?_, ?_, ?_, ?_, ?_⟩
  · rw [hn'.route, hbound]
    decide +kernel
  · rw [hn'.search, hbound]
    rfl
  · rw [hn'.methodKeys, hregistered]
    decide
  · rw [hn'.methods, hregistered]
    rfl
  · rw [hn'.children, List.filterMap_cons_none (nextSegment?_self huser),
      List.filterMap_cons_some (nextSegment?_of_eq hextra), List.filterMap_cons_none (nextSegment?_self hagain)]
    rfl

end ClientBuild.RouteTree
