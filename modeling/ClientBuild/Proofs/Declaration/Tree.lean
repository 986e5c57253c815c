import ClientBuild.Declaration.Tree
import ClientBuild.Proofs.Assoc

/-!
# What the tree of routes holds

Binding an entity changes the nodes on its way only (`get?_insertAt`): it gives a route to the node of its
segments and to no other (`routeAt_insertAt`), so a node of a tree is a leaf exactly if some entity has its
segments, and its route is that of the first one (`routeAt_build`).
-/

namespace ClientBuild.RouteTree

variable {namespaceId : String} {e : Entity} {es : List Entity} {level : RouteTree}

/-! ## Nodes -/

theorem get?_cons_cons (k k' : String) (ks : List String) (level : RouteTree) :
    get? (k :: k' :: ks) level = (Assoc.get? k level).bind fun n => get? (k' :: ks) n.children :=
  rfl

@[simp] theorem get?_empty (path : List String) : get? path [] = none := by
  cases path with
  | nil => rfl
  | cons k path => cases path <;> rfl

/-- The route of the node at a path, if there is a leaf. -/
def routeAt (path : List String) (level : RouteTree) : Option String :=
  (get? path level).bind (·.route)

@[simp] theorem bind_children (namespaceId : String) (e : Entity) (n : RouteNode) :
    (bind namespaceId e n).children = n.children := rfl

theorem routeAt_singleton (k : String) (level : RouteTree) :
    routeAt [k] level = ((Assoc.get? k level).getD {}).route := by
  rw [routeAt, get?]
  cases Assoc.get? k level <;> rfl

theorem routeAt_cons_cons (k k' : String) (ks : List String) (level : RouteTree) :
    routeAt (k :: k' :: ks) level =
      routeAt (k' :: ks) ((Assoc.get? k level).getD {}).children := by
  rw [routeAt, get?_cons_cons]
  cases Assoc.get? k level with
  | none => simp [routeAt]
  | some n => rfl

theorem exists_of_routeAt {k r : String} {ks : List String} (h : routeAt (k :: ks) level = some r) :
    ∃ n, Assoc.get? k level = some n := by
  obtain ⟨n, hn, _⟩ := Option.bind_eq_some_iff.1 h
  cases ks with
  | nil => exact ⟨n, hn⟩
  | cons k' ks =>
    obtain ⟨m, hm, _⟩ := Option.bind_eq_some_iff.1 hn
    exact ⟨m, hm⟩

/-- A node on the way of an entity: the one that it is bound to, or one that passes it on. -/
def passed (namespaceId : String) (e : Entity) : (rest : List String) → RouteNode → RouteNode
  | [], n => bind namespaceId e n
  | s :: rest, n => { n with children := insertAt namespaceId e (s :: rest) n.children }

/-- The node at a path, an empty one if there is none. -/
def nodeAt (path : List String) (level : RouteTree) : RouteNode := (get? path level).getD {}

theorem nodeAt_cons_cons (k k' : String) (ks : List String) (level : RouteTree) :
    nodeAt (k :: k' :: ks) level = nodeAt (k' :: ks) ((Assoc.get? k level).getD {}).children := by
  rw [nodeAt, get?_cons_cons]
  cases Assoc.get? k level with
  | none => simp [nodeAt]
  | some n => rfl

theorem get?_children (k k' : String) (ks : List String) (level : RouteTree) :
    get? (k' :: ks) ((Assoc.get? k level).getD {}).children = get? (k :: k' :: ks) level := by
  rw [get?_cons_cons]
  cases Assoc.get? k level with
  | none => exact get?_empty _
  | some n => rfl

theorem insertAt_cons (namespaceId : String) (e : Entity) (s : String) (rest : List String) (level : RouteTree) :
    insertAt namespaceId e (s :: rest) level =
      Assoc.alter s (fun n => passed namespaceId e rest (n.getD {})) level := by
  cases rest <;> rfl

/-- **Binding an entity changes the nodes on its way** and no other: the last of its segments gets it, and those
before pass it on. -/
theorem get?_insertAt (namespaceId : String) (e : Entity) {path : List String} (hpath : path ≠ []) :
    ∀ (segments : List String) (level : RouteTree), get? path (insertAt namespaceId e segments level) =
      if path <+: segments then some (passed namespaceId e (segments.drop path.length) (nodeAt path level))
      else get? path level
  | [], level => by rw [insertAt, if_neg fun h => hpath (List.prefix_nil.1 h)]
  | s :: rest, level => by
    rw [insertAt_cons]
    match path, hpath with
    | [k], _ =>
      simp only [get?, Assoc.get?_alter, List.cons_prefix_cons, List.nil_prefix, and_true]
      split
      next h =>
        subst h
        rfl
      next => rfl
    | k :: k' :: ks, _ =>
      rw [get?_cons_cons, Assoc.get?_alter]
      by_cases h : k = s
      · subst h
        have ih := get?_insertAt namespaceId e (List.cons_ne_nil k' ks) rest
          ((Assoc.get? k level).getD {}).children
        have hchildren : ∀ n : RouteNode, (passed namespaceId e rest n).children =
            insertAt namespaceId e rest n.children := by
          intro n
          cases rest <;> rfl
        rw [if_pos rfl, Option.bind_some, hchildren, ih, nodeAt_cons_cons, get?_children]
        simp only [List.cons_prefix_cons, true_and, List.length_cons, List.drop_succ_cons]
      · have hne : ¬ k :: k' :: ks <+: s :: rest := fun hfront => h (List.cons_prefix_cons.1 hfront).1
        rw [if_neg h, if_neg hne, get?_cons_cons]

theorem nodeAt_insertAt (namespaceId : String) (e : Entity) {path : List String} (hpath : path ≠ [])
    (segments : List String) (level : RouteTree) : nodeAt path (insertAt namespaceId e segments level) =
      if path <+: segments then passed namespaceId e (segments.drop path.length) (nodeAt path level)
      else nodeAt path level := by
  rw [nodeAt, get?_insertAt namespaceId e hpath]
  split
  next => rfl
  next => rfl

theorem routeAt_eq (path : List String) (level : RouteTree) : routeAt path level = (nodeAt path level).route := by
  rw [routeAt, nodeAt]
  cases get? path level <;> rfl

/-- **Binding an entity gives its node a route**, unless that has one, and no other node. -/
theorem routeAt_insertAt (namespaceId : String) (e : Entity) {path : List String}
    (hpath : path ≠ []) (segments : List String) (level : RouteTree) :
      routeAt path (insertAt namespaceId e segments level) =
        if path = segments then some ((routeAt path level).getD (String.ofList (pathOf e)))
        else routeAt path level := by
  rw [routeAt_eq, routeAt_eq, nodeAt_insertAt namespaceId e hpath]
  by_cases h : path <+: segments
  · obtain ⟨rest, rfl⟩ := h
    rw [if_pos (List.prefix_append path rest), List.drop_left]
    cases rest with
    | nil => rw [List.append_nil, if_pos rfl, passed, bind]
    | cons s rest => rw [if_neg (by simp), passed]
  · have hne : path ≠ segments := by
      rintro rfl
      exact h (List.prefix_refl path)
    rw [if_neg h, if_neg hne]

/-- **The leaf at a path has the route of the first entity with those segments.** -/
theorem routeAt_build (namespaceId : String) (es : List Entity) {path : List String}
    (hpath : path ≠ []) :
    routeAt path (build namespaceId es) =
      (es.find? fun e => segmentsOf namespaceId e == path).map fun e => String.ofList (pathOf e) := by
  have hfold : ∀ (es : List Entity) (level : RouteTree),
      routeAt path (es.foldl (fun t e => insertAt namespaceId e (segmentsOf namespaceId e) t) level) =
        (routeAt path level).or
          ((es.find? fun e => segmentsOf namespaceId e == path).map fun e =>
            String.ofList (pathOf e)) := by
    intro es
    induction es with
    | nil => intro level; simp
    | cons e es ih =>
      intro level
      rw [List.foldl_cons, ih, routeAt_insertAt namespaceId e hpath, List.find?_cons]
      by_cases h : path = segmentsOf namespaceId e
      · rw [if_pos h, show (segmentsOf namespaceId e == path) = true by simpa using h.symm]
        cases routeAt path level <;> rfl
      · rw [if_neg h, show (segmentsOf namespaceId e == path) = false by simpa using Ne.symm h]
  have hempty : routeAt path ([] : RouteTree) = none := by simp [routeAt]
  rw [build, hfold, hempty, Option.none_or]

end ClientBuild.RouteTree
