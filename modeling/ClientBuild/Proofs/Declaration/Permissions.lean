import ClientBuild.Proofs.Declaration.Nodes
import Mathlib.Data.List.DropRight

/-!
# The permissions of a leaf

Each time an entity is bound to a leaf, the leaf gets a permission for everything that it holds at that time.  So
what the last entity bound to it finds there has one, and so have search groups that were there once, whatever became
of them (`mem_keys_permission`).  The text of a permission is made from the route of the leaf, which the first entity
gave it, so it is the same whichever binding put it in (`IsSigned`).
-/

namespace ClientBuild.RouteTree

variable {namespaceId : String} {es : List Entity} {path : List String} {name : String} {e : Entity} {n : RouteNode}

/-! ## What a leaf has held -/

/-- The entities in front of the last one that is bound to the node at a path. -/
def beforeLast (namespaceId : String) (path : List String) (es : List Entity) : List Entity :=
  (es.rdropWhile fun e => segmentsOf namespaceId e ≠ path).dropLast

/-- Has an entity of the list brought a member of this name to the node at a path: search groups or a method, being
bound to it, or a child, having a segment behind the path? -/
def Brought (namespaceId : String) (es : List Entity) (path : List String) (name : String) : Prop :=
  (name = "search" ∧ ∃ e ∈ es, segmentsOf namespaceId e = path ∧ e.search.isSome = true) ∨
    (∃ e ∈ es, segmentsOf namespaceId e = path ∧ ∃ m ∈ e.methods, methodKey? m = some name) ∨
    ∃ e ∈ es, path ++ [name] <+: segmentsOf namespaceId e

theorem Brought.mono {ds : List Entity} (hsub : ds ⊆ es) (h : Brought namespaceId ds path name) :
    Brought namespaceId es path name := by
  rcases h with ⟨hname, e, he, hsearch⟩ | ⟨e, he, hmethod⟩ | ⟨e, he, hchild⟩
  · exact Or.inl ⟨hname, e, hsub he, hsearch⟩
  · exact Or.inr (Or.inl ⟨e, hsub he, hmethod⟩)
  · exact Or.inr (Or.inr ⟨e, hsub he, hchild⟩)

theorem beforeLast_concat_of_eq (h : segmentsOf namespaceId e = path) :
    beforeLast namespaceId path (es ++ [e]) = es := by
  rw [beforeLast, List.rdropWhile_concat_neg _ _ _ (by simpa using h), List.dropLast_concat]

theorem beforeLast_concat_of_ne (h : segmentsOf namespaceId e ≠ path) :
    beforeLast namespaceId path (es ++ [e]) = beforeLast namespaceId path es := by
  rw [beforeLast, List.rdropWhile_concat_pos _ _ _ (by simpa using h), beforeLast]

theorem beforeLast_append {before after : List Entity} (he : segmentsOf namespaceId e = path)
    (hafter : ∀ f ∈ after, segmentsOf namespaceId f ≠ path) :
    beforeLast namespaceId path (before ++ e :: after) = before := by
  induction after using List.reverseRecOn with
  | nil => exact beforeLast_concat_of_eq he
  | append_singleton after f ih =>
    rw [List.forall_mem_append] at hafter
    rw [← List.cons_append, ← List.append_assoc, beforeLast_concat_of_ne (hafter.2 f List.mem_cons_self), ih hafter.1]

/-- If an entity is bound to a node, one is the last. -/
theorem exists_last (h : ∃ e ∈ es, segmentsOf namespaceId e = path) :
    ∃ before e after, es = before ++ e :: after ∧ segmentsOf namespaceId e = path ∧
      ∀ f ∈ after, segmentsOf namespaceId f ≠ path := by
  induction es with
  | nil =>
    obtain ⟨e, he, -⟩ := h
    cases he
  | cons d es ih =>
    by_cases hlater : ∃ e ∈ es, segmentsOf namespaceId e = path
    · obtain ⟨before, e, after, rfl, hlast⟩ := ih hlater
      exact ⟨d :: before, e, after, rfl, hlast⟩
    · obtain ⟨e, he, heq⟩ := h
      rcases List.mem_cons.1 he with rfl | he
      · exact ⟨[], e, es, rfl, heq, fun f hf hfeq => hlater ⟨f, hf, hfeq⟩⟩
      · exact absurd ⟨e, he, heq⟩ hlater

/-! ## The members of a node -/

theorem mem_memberNames : name ∈ n.memberNames ↔
    (name = "search" ∧ n.search.isSome = true) ∨ name ∈ Assoc.keys n.methods ∨ name ∈ Assoc.keys n.children := by
  rw [RouteNode.memberNames, List.mem_append, List.mem_append, or_assoc]
  cases n.search <;> simp

theorem nextSegment?_eq_some_iff :
    nextSegment? namespaceId path e = some name ↔ path ++ [name] <+: segmentsOf namespaceId e := by
  constructor
  · intro h
    rw [nextSegment?] at h
    split at h
    next hfront =>
      obtain ⟨rest, hrest⟩ := hfront
      rw [← hrest, List.getElem?_append_right (Nat.le_refl _), Nat.sub_self] at h
      cases rest with
      | nil => cases h
      | cons s rest =>
        cases h
        exact ⟨rest, by rw [← hrest]; simp⟩
    next => cases h
  · rintro ⟨rest, hrest⟩
    have hsplit : segmentsOf namespaceId e = path ++ name :: rest := by rw [← hrest, List.append_assoc]; rfl
    exact nextSegment?_of_eq hsplit

theorem mem_boundTo : e ∈ boundTo namespaceId es path ↔ e ∈ es ∧ segmentsOf namespaceId e = path := by
  rw [boundTo, List.mem_filter, beq_iff_eq]

theorem mem_keys_registered : name ∈ (registered namespaceId es path).map Prod.fst ↔
    ∃ e ∈ es, segmentsOf namespaceId e = path ∧ ∃ m ∈ e.methods, methodKey? m = some name := by
  simp only [registered, keyedMethods, List.mem_map, List.mem_flatMap, List.mem_filterMap, mem_boundTo,
    Option.map_eq_some_iff]
  constructor
  · rintro ⟨p, ⟨e, ⟨he, heq⟩, m, hm, key, hkey, rfl⟩, rfl⟩
    exact ⟨e, he, heq, m, hm, hkey⟩
  · rintro ⟨e, he, heq, m, hm, hkey⟩
    exact ⟨(name, m), ⟨e, ⟨he, heq⟩, m, hm, name, hkey, rfl⟩, rfl⟩

/-- What the node at a path holds: search groups if the last entity bound to it has some, and all the methods and
children that were brought. -/
theorem mem_memberNames_build (hpath : path ≠ []) : name ∈ (nodeAt path (build namespaceId es)).memberNames ↔
    (name = "search" ∧ ∃ e ∈ (boundTo namespaceId es path).getLast?, e.search.isSome = true) ∨
      (∃ e ∈ es, segmentsOf namespaceId e = path ∧ ∃ m ∈ e.methods, methodKey? m = some name) ∨
      ∃ e ∈ es, path ++ [name] <+: segmentsOf namespaceId e := by
  have hnode := describes_nodeAt_build namespaceId es hpath
  rw [mem_memberNames, hnode.methodKeys, hnode.children, hnode.search, Text.mem_distinct, Text.mem_distinct,
    mem_keys_registered]
  simp only [List.mem_filterMap, nextSegment?_eq_some_iff, Option.isSome_bind, Option.any_eq_true, Option.mem_def]

/-- What the node at a path holds was brought there. -/
theorem brought_of_mem_memberNames (hpath : path ≠ [])
    (h : name ∈ (nodeAt path (build namespaceId es)).memberNames) : Brought namespaceId es path name := by
  rcases (mem_memberNames_build hpath).1 h with ⟨hname, e, hlast, hsearch⟩ | hrest
  · obtain ⟨he, heq⟩ := mem_boundTo.1 (List.mem_of_getLast? hlast)
    exact Or.inl ⟨hname, e, he, heq, hsearch⟩
  · exact Or.inr hrest

/-- What was brought to the node at a path is held there, or was before the last entity was bound. -/
theorem Brought.held (hpath : path ≠ []) (h : Brought namespaceId es path name) :
    name ∈ (nodeAt path (build namespaceId es)).memberNames ∨
      Brought namespaceId (beforeLast namespaceId path es) path name := by
  rcases h with ⟨hname, e, he, heq, hsearch⟩ | hrest
  · obtain ⟨before, l, after, rfl, hl, hafter⟩ := exists_last ⟨e, he, heq⟩
    rw [beforeLast_append hl hafter]
    rcases List.mem_append.1 he with he | he
    · exact Or.inr (Or.inl ⟨hname, e, he, heq, hsearch⟩)
    rcases List.mem_cons.1 he with rfl | he
    · have hlast : (boundTo namespaceId (before ++ e :: after) path).getLast? = some e := by
        have hnone : after.filter (fun f => segmentsOf namespaceId f == path) = [] :=
          List.filter_eq_nil_iff.2 fun f hf => by simpa using hafter f hf
        rw [boundTo, List.filter_append, List.filter_cons_of_pos (by simpa using heq), hnone, List.getLast?_concat]
      exact Or.inl ((mem_memberNames_build hpath).2 (Or.inl ⟨hname, e, hlast, hsearch⟩))
    · exact absurd heq (hafter e he)
  · exact Or.inl ((mem_memberNames_build hpath).2 (Or.inr hrest))

/-! ## Permissions -/

/-- Binding an entity inserts a permission for each member. -/
theorem permission_bind (namespaceId : String) (e : Entity) (n : RouteNode) :
    (bind namespaceId e n).permission = Assoc.insertAll n.permission (n.memberNames.map fun name =>
      (name, permissionOf namespaceId (n.route.getD (String.ofList (pathOf e))) name)) := by
  rw [Assoc.insertAll, List.foldl_map]
  rfl

theorem mem_keys_permission_bind : name ∈ Assoc.keys (bind namespaceId e n).permission ↔
    name ∈ Assoc.keys n.permission ∨ name ∈ n.memberNames := by
  rw [permission_bind, Assoc.mem_keys_insertAll, Assoc.keys, Assoc.keys, List.map_map]
  simp only [Function.comp_def, List.map_id']

/-- The route and the permissions of a node change only for an entity that is bound to it. -/
theorem permission_build_concat (hpath : path ≠ []) (e : Entity) :
    segmentsOf namespaceId e = path ∧
        nodeAt path (build namespaceId (es ++ [e])) = bind namespaceId e (nodeAt path (build namespaceId es)) ∨
      segmentsOf namespaceId e ≠ path ∧
        (nodeAt path (build namespaceId (es ++ [e]))).route = (nodeAt path (build namespaceId es)).route ∧
        (nodeAt path (build namespaceId (es ++ [e]))).permission = (nodeAt path (build namespaceId es)).permission := by
  rcases nodeAt_build_concat hpath e with hbound | ⟨s, rest, hsplit, hnode⟩ | ⟨hoff, hnode⟩
  · exact Or.inl hbound
  · refine Or.inr ⟨by simp [hsplit], ?_⟩
    rw [hnode]
    exact ⟨rfl, rfl⟩
  · refine Or.inr ⟨fun heq => hoff (heq ▸ List.prefix_refl _), ?_⟩
    rw [hnode]
    exact ⟨rfl, rfl⟩

/-- **What was brought to a leaf before the last entity was bound to it has a permission**, and nothing else. -/
theorem mem_keys_permission (hpath : path ≠ []) :
    name ∈ Assoc.keys (nodeAt path (build namespaceId es)).permission ↔
      Brought namespaceId (beforeLast namespaceId path es) path name := by
  induction es using List.reverseRecOn with
  | nil => simp [build, nodeAt, Assoc.keys, Brought, beforeLast]
  | append_singleton es e ih =>
    rcases permission_build_concat hpath e with ⟨heq, hnode⟩ | ⟨hne, -, hkept⟩
    · rw [hnode, mem_keys_permission_bind, ih, beforeLast_concat_of_eq heq]
      constructor
      · rintro (hbefore | hmember)
        · exact hbefore.mono (List.Subset.trans (List.dropLast_subset _) (List.rdropWhile_prefix _ _).subset)
        · exact brought_of_mem_memberNames hpath hmember
      · exact fun h => (h.held hpath).symm
    · rw [hkept, ih, beforeLast_concat_of_ne hne]

/-- The permissions of a node have different names, and each is made from the route of the node and the name. -/
structure IsSigned (namespaceId : String) (n : RouteNode) : Prop where
  unique : (Assoc.keys n.permission).Nodup
  signed : ∀ p ∈ n.permission, ∃ r, n.route = some r ∧ p.2 = permissionOf namespaceId r p.1

theorem IsSigned.bind (h : IsSigned namespaceId n) (e : Entity) : IsSigned namespaceId (bind namespaceId e n) where
  unique := by
    rw [permission_bind]
    exact Assoc.nodup_keys_insertAll _ h.unique
  signed := by
    intro p hp
    refine ⟨n.route.getD (String.ofList (pathOf e)), rfl, ?_⟩
    rw [permission_bind] at hp
    rcases Assoc.mem_insertAll _ hp with hold | hnew
    · obtain ⟨r, hr, hp⟩ := h.signed p hold
      rw [hr, Option.getD_some, hp]
    · obtain ⟨name, -, rfl⟩ := List.mem_map.1 hnew
      rfl

theorem isSigned_nodeAt_build (namespaceId : String) (es : List Entity) (hpath : path ≠ []) :
    IsSigned namespaceId (nodeAt path (build namespaceId es)) := by
  induction es using List.reverseRecOn with
  | nil =>
    have hnone : (nodeAt path (build namespaceId [])).permission = [] := by simp [build, nodeAt]
    exact ⟨by rw [hnone]; exact List.nodup_nil, by rw [hnone]; exact List.forall_mem_nil _⟩
  | append_singleton es e ih =>
    rcases permission_build_concat hpath e with ⟨-, hnode⟩ | ⟨-, hroute, hkept⟩
    · rw [hnode]
      exact ih.bind e
    · exact ⟨hkept ▸ ih.unique, by rw [hkept, hroute]; exact ih.signed⟩

/-- The permissions of the leaf at a path: what was brought there by `before`, under texts that begin with the route of
`first`. -/
structure Permits (namespaceId : String) (first : Entity) (before : List Entity) (path : List String)
    (n : RouteNode) : Prop where
  unique : (Assoc.keys n.permission).Nodup
  names : ∀ name, name ∈ Assoc.keys n.permission ↔ Brought namespaceId before path name
  values : ∀ p ∈ n.permission, p.2 = String.ofList
    ((Text.replaceFirst (namespaceId.toList ++ ['/']) [] (pathOf first) ++ '/' :: p.1.toList).map fun c =>
      if c = '/' then ':' else c)

/-- **Permissions follow from the order of insertion**: for every leaf, they are for what was brought there before the
last entity was bound to it, and their texts begin with the route of the first one. -/
theorem permissions_of_leaf (namespaceId : String) (es : List Entity)
    (h : get? path (build namespaceId es) = some n) (hleaf : n.isLeaf = true) :
    ∃ first before last after, (boundTo namespaceId es path).head? = some first ∧ es = before ++ last :: after ∧
      segmentsOf namespaceId last = path ∧ (∀ e ∈ after, segmentsOf namespaceId e ≠ path) ∧
      Permits namespaceId first before path n := by
  have hpath : path ≠ [] := by
    rintro rfl
    cases h
  have hnode : nodeAt path (build namespaceId es) = n := by rw [nodeAt, h, Option.getD_some]
  have hdescribes := describes_nodeAt_build namespaceId es hpath
  have hsigned := isSigned_nodeAt_build namespaceId es hpath
  have hkeys (name : String) : name ∈ Assoc.keys (nodeAt path (build namespaceId es)).permission ↔
      Brought namespaceId (beforeLast namespaceId path es) path name := mem_keys_permission hpath
  rw [hnode] at hdescribes hsigned hkeys
  obtain ⟨before, last, after, rfl, hlast, hafter⟩ := exists_last (hdescribes.isLeaf_iff.1 hleaf)
  obtain ⟨r, hr⟩ := Option.isSome_iff_exists.1 hleaf
  obtain ⟨first, hfirst, rfl⟩ := Option.map_eq_some_iff.1 (hdescribes.route.symm.trans hr)
  rw [beforeLast_append hlast hafter] at hkeys
  refine ⟨first, before, last, after, hfirst, rfl, hlast, hafter, hsigned.unique, hkeys, fun p hp => ?_⟩
  obtain ⟨r, hroute, hvalue⟩ := hsigned.signed p hp
  obtain rfl : String.ofList (pathOf first) = r := Option.some.inj (hr.symm.trans hroute)
  rw [hvalue, permissionOf, String.toList_ofList]

/-- Users with search groups, a route nested under theirs, and users again: all that the first two brought has a
permission. -/
theorem permissions_of_leaf_user :
    let path := ["base", "sysUser"]
    let user : Entity := { route := "/admin/base/sys-user", methods := [{ path := "/add" }], search := some {} }
    let extra : Entity := { route := "/admin/base/sys-user/extra" }
    let again : Entity := { route := "/base/admin/sys-user", methods := [{ path := "/page" }] }
    let es := [user, extra, again]
    let n := nodeAt path (build "admin" es)
    get? path (build "admin" es) = some n ∧ n.isLeaf = true ∧
      n.permission = [("search", "base:sys-user:search"), ("add", "base:sys-user:add"),
        ("extra", "base:sys-user:extra")] ∧
      ∃ first before last after, (boundTo "admin" es path).head? = some first ∧ es = before ++ last :: after ∧
        segmentsOf "admin" last = path ∧ (∀ e ∈ after, segmentsOf "admin" e ≠ path) ∧
        Permits "admin" first before path n := by
  intro path user extra again es n
  have hsome : (get? path (build "admin" es)).isSome = true := by decide +kernel
  have hn : get? path (build "admin" es) = some n := by
    obtain ⟨m, hm⟩ := Option.isSome_iff_exists.1 hsome
    exact hm.trans (congrArg some (by rw [show n = nodeAt path (build "admin" es) from rfl, nodeAt, hm]; rfl))
  have hleaf : n.isLeaf = true := by decide +kernel
  exact ⟨hn, hleaf, by decide +kernel, permissions_of_leaf "admin" es hn hleaf⟩

end ClientBuild.RouteTree
