import ClientBuild.Proofs.Declaration.Permissions

/-!
# Trees of permuted entities

Trees are compared up to the order of the keys at each level (`Reordered`).  As no level of a tree holds a key twice,
two trees are the same in this sense if they have nodes at the same paths that hold the same (`UniqueKeys.reordered`),
and what a node holds depends on the order of the entities only where several are bound to it, or one below it.  Where
the segments of no entity begin with those of another one, neither happens, so permuting the entities permutes the keys
(`build_reordered`).
-/

namespace ClientBuild.RouteTree

variable {namespaceId : String} {es es' : List Entity} {path : List String} {t t' : RouteTree} {k : String}
  {n : RouteNode}

/-! ## Trees up to the order of keys -/

/-- What a node holds besides its children. -/
def held (n : RouteNode) : RouteNode := { n with children := [] }

/-- The same tree, up to the order of keys at each level: under the same keys there are nodes that hold the same and
whose children are the same up to their order. -/
inductive Reordered : RouteTree → RouteTree → Prop where
  | nil : Reordered [] []
  | cons (k : String) {n m : RouteNode} {t t' : RouteTree} (same : held n = held m)
      (below : Reordered n.children m.children) (rest : Reordered t t') : Reordered ((k, n) :: t) ((k, m) :: t')
  | swap (p q : String × RouteNode) (t : RouteTree) (apart : p.1 ≠ q.1) : Reordered (p :: q :: t) (q :: p :: t)
  | trans {t u v : RouteTree} (first : Reordered t u) (second : Reordered u v) : Reordered t v

theorem Reordered.refl : ∀ t : RouteTree, Reordered t t
  | [] => .nil
  | (k, ⟨_, _, _, _, children⟩) :: t => .cons k rfl (refl children) (refl t)

/-- A node may go behind nodes with other keys. -/
theorem Reordered.middle (n : RouteNode) {a : RouteTree} (ha : k ∉ Assoc.keys a) (b : RouteTree) :
    Reordered ((k, n) :: (a ++ b)) (a ++ (k, n) :: b) := by
  induction a with
  | nil => exact .refl _
  | cons p a ih =>
    obtain ⟨key, m⟩ := p
    obtain ⟨hkey, ha⟩ := not_or.1 (mt List.mem_cons.2 ha)
    exact (Reordered.swap (k, n) (key, m) (a ++ b) hkey).trans (.cons key rfl (.refl _) (ih ha))

/-! ## What tells trees apart -/

/-- No level of the tree holds a key twice. -/
inductive UniqueKeys : RouteTree → Prop where
  | nil : UniqueKeys []
  | cons {k : String} {n : RouteNode} {t : RouteTree} (new : k ∉ Assoc.keys t) (below : UniqueKeys n.children)
      (rest : UniqueKeys t) : UniqueKeys ((k, n) :: t)

theorem UniqueKeys.of_append {a b : RouteTree} (h : UniqueKeys (a ++ (k, n) :: b)) :
    k ∉ Assoc.keys (a ++ b) ∧ UniqueKeys n.children ∧ UniqueKeys (a ++ b) := by
  induction a with
  | nil =>
    cases h with
    | cons new below rest => exact ⟨new, below, rest⟩
  | cons p a ih =>
    cases h with
    | @cons key m _ new below rest =>
      obtain ⟨hk, hn, hrest⟩ := ih rest
      have hnew : key ∉ Assoc.keys a ∧ key ≠ k ∧ key ∉ Assoc.keys b := by
        simpa [Assoc.keys] using new
      have hkey : key ∉ Assoc.keys (a ++ b) := by
        rw [Assoc.keys_append, List.mem_append]
        exact not_or.2 ⟨hnew.1, hnew.2.2⟩
      exact ⟨List.not_mem_cons_of_ne_of_not_mem hnew.2.1.symm hk, hn, .cons hkey below hrest⟩

/-- What is found behind a key depends on the node under it only. -/
theorem get?_congr (h : Assoc.get? k t = Assoc.get? k t') (path : List String) :
    get? (k :: path) t = get? (k :: path) t' := by
  cases path with
  | nil => exact h
  | cons k' ks => rw [get?_cons_cons, get?_cons_cons, h]

theorem get?_cons_of_ne {key : String} (h : key ≠ k) (n : RouteNode) (t : RouteTree) (path : List String) :
    get? (k :: path) ((key, n) :: t) = get? (k :: path) t :=
  get?_congr (by rw [Assoc.get?_cons, if_neg h]) path

theorem get?_of_get? (h : Assoc.get? k t = some n) (hpath : path ≠ []) : get? (k :: path) t = get? path n.children := by
  cases path with
  | nil => exact absurd rfl hpath
  | cons k' ks => rw [get?_cons_cons, h, Option.bind_some]

theorem get?_of_not_mem (h : k ∉ Assoc.keys t) (path : List String) : get? (k :: path) t = none := by
  have hempty : Assoc.get? k t = Assoc.get? k ([] : RouteTree) := Assoc.get?_of_not_mem h
  rw [get?_congr hempty, get?_empty]

/-- **Trees with the same nodes at the same paths are the same up to the order of keys.** -/
theorem UniqueKeys.reordered (h : UniqueKeys t) (h' : UniqueKeys t')
    (hsame : ∀ path, (get? path t).map held = (get? path t').map held) : Reordered t t' := by
  induction h generalizing t' with
  | nil =>
    cases t' with
    | nil => exact .nil
    | cons p t' =>
      have hp := hsame [p.1]
      rw [get?_empty, get?, Assoc.get?_cons, if_pos rfl] at hp
      cases hp
  | @cons k n t new below rest ihbelow ihrest =>
    have hk := hsame [k]
    rw [get?, get?, Assoc.get?_cons, if_pos rfl, Option.map_some] at hk
    obtain ⟨m, hm, hheld⟩ := Option.map_eq_some_iff.1 hk.symm
    obtain ⟨a, b, rfl⟩ := List.append_of_mem (Assoc.mem_of_get? hm)
    obtain ⟨hnew, hbelow, hrest⟩ := h'.of_append
    have hchildren : Reordered n.children m.children := by
      refine ihbelow hbelow fun path => ?_
      cases path with
      | nil => rfl
      | cons k' ks =>
        have hpath := hsame (k :: k' :: ks)
        rwa [get?_of_get? hm (List.cons_ne_nil k' ks),
          get?_of_get? (n := n) (by rw [Assoc.get?_cons, if_pos rfl]) (List.cons_ne_nil k' ks)] at hpath
    have hothers : Reordered t (a ++ b) := by
      refine ihrest hrest fun path => ?_
      cases path with
      | nil => rfl
      | cons k' ks =>
        by_cases hkey : k = k'
        · subst hkey
          rw [get?_of_not_mem new, get?_of_not_mem hnew]
        · have hpath := hsame (k' :: ks)
          rw [get?_cons_of_ne hkey] at hpath
          rw [hpath]
          congr 1
          refine get?_congr ?_ ks
          rw [Assoc.get?_append, Assoc.get?_append, Assoc.get?_cons, if_neg hkey]
    have hleft : k ∉ Assoc.keys a := fun hmem => hnew (Assoc.keys_append a b ▸ List.mem_append_left _ hmem)
    exact (Reordered.cons k hheld.symm hchildren hothers).trans (.middle m hleft b)

/-! ## Trees of lists -/

theorem UniqueKeys.alter {f : Option RouteNode → RouteNode} (h : UniqueKeys t)
    (hf : ∀ n, (∀ m ∈ n, UniqueKeys m.children) → UniqueKeys (f n).children) (key : String) :
    UniqueKeys (Assoc.alter key f t) := by
  induction h with
  | nil => exact .cons List.not_mem_nil (hf none fun _ hm => by cases hm) .nil
  | @cons k n t new below rest _ ih =>
    rw [Assoc.alter]
    split
    next => exact .cons new (hf (some n) fun m hm => by cases hm; exact below) rest
    next hk =>
      refine .cons ?_ below ih
      rw [Assoc.keys_alter]
      split
      next => exact new
      next => exact List.not_mem_append new fun hmem => hk (List.mem_singleton.1 hmem)

theorem UniqueKeys.insertAt (namespaceId : String) (e : Entity) :
    ∀ {segments : List String} {t : RouteTree}, UniqueKeys t → UniqueKeys (insertAt namespaceId e segments t)
  | [], _, h => h
  | s :: rest, t, h => by
    rw [insertAt_cons]
    refine h.alter (fun n hn => ?_) s
    have hchildren : UniqueKeys (n.getD {}).children := by
      cases n with
      | none => exact .nil
      | some n => exact hn n rfl
    cases rest with
    | nil => exact hchildren
    | cons s' rest => exact insertAt namespaceId e hchildren

theorem uniqueKeys_build (namespaceId : String) (es : List Entity) : UniqueKeys (build namespaceId es) := by
  induction es using List.reverseRecOn with
  | nil => exact .nil
  | append_singleton es e ih =>
    rw [build_concat]
    exact ih.insertAt namespaceId e

/-- Do the segments of neither entity begin with those of the other one? -/
def Apart (namespaceId : String) (e f : Entity) : Prop :=
  ¬ segmentsOf namespaceId e <+: segmentsOf namespaceId f ∧ ¬ segmentsOf namespaceId f <+: segmentsOf namespaceId e

instance (namespaceId : String) (e f : Entity) : Decidable (Apart namespaceId e f) :=
  inferInstanceAs (Decidable (_ ∧ _))

theorem Apart.symm {e f : Entity} (h : Apart namespaceId e f) : Apart namespaceId f e := ⟨h.2, h.1⟩

/-- At most one of entities that stand apart is bound to a node. -/
theorem boundTo_cases (h : es.Pairwise (Apart namespaceId)) (path : List String) :
    boundTo namespaceId es path = [] ∨ ∃ e, boundTo namespaceId es path = [e] := by
  have hpairwise := h.sublist (List.filter_sublist (p := fun e => segmentsOf namespaceId e == path))
  have hmem : ∀ e ∈ boundTo namespaceId es path, segmentsOf namespaceId e = path := fun e he => by
    simpa using (List.mem_filter.1 he).2
  rw [← boundTo] at hpairwise
  cases hbound : boundTo namespaceId es path with
  | nil => exact Or.inl rfl
  | cons e bound =>
    rw [hbound] at hpairwise hmem
    cases bound with
    | nil => exact Or.inr ⟨e, rfl⟩
    | cons f bound =>
      have hapart := List.rel_of_pairwise_cons hpairwise List.mem_cons_self
      rw [Apart, hmem e List.mem_cons_self, hmem f (List.mem_cons_of_mem e List.mem_cons_self)] at hapart
      exact absurd (List.prefix_refl path) hapart.1

theorem boundTo_eq_of_perm (hperm : es.Perm es') (h : es.Pairwise (Apart namespaceId)) (path : List String) :
    boundTo namespaceId es path = boundTo namespaceId es' path := by
  have hbound : (boundTo namespaceId es path).Perm (boundTo namespaceId es' path) := hperm.filter _
  rcases boundTo_cases h path with hnil | ⟨e, hsingle⟩
  · rw [hnil] at hbound ⊢
    exact hbound.nil_eq
  · rw [hsingle] at hbound ⊢
    exact (List.perm_singleton.1 hbound.symm).symm

theorem Brought.exists_front (h : Brought namespaceId es path name) : ∃ e ∈ es, path <+: segmentsOf namespaceId e := by
  rcases h with ⟨-, e, he, heq, -⟩ | ⟨e, he, heq, -⟩ | ⟨e, he, hfront⟩
  · exact ⟨e, he, heq ▸ List.prefix_refl _⟩
  · exact ⟨e, he, heq ▸ List.prefix_refl _⟩
  · exact ⟨e, he, (List.prefix_append path [name]).trans hfront⟩

/-- Entities that stand apart bring nothing to the node of another one, so there are no permissions. -/
theorem permission_eq_nil (h : es.Pairwise (Apart namespaceId)) (hpath : path ≠ []) :
    (nodeAt path (build namespaceId es)).permission = [] := by
  have hnone (name : String) : ¬ Brought namespaceId (beforeLast namespaceId path es) path name := by
    intro hbrought
    obtain ⟨e, he, hfront⟩ := hbrought.exists_front
    by_cases hbound : ∃ e ∈ es, segmentsOf namespaceId e = path
    · obtain ⟨before, last, after, rfl, hlast, hafter⟩ := exists_last hbound
      rw [beforeLast_append hlast hafter] at he
      exact ((List.pairwise_append.1 h).2.2 e he last List.mem_cons_self).2 (hlast ▸ hfront)
    · have hall : ∀ e ∈ es, decide (segmentsOf namespaceId e ≠ path) = true := fun e he =>
        decide_eq_true fun heq => hbound ⟨e, he, heq⟩
      rw [beforeLast, List.rdropWhile_eq_nil_iff.2 hall] at he
      cases he
  have hkeys : Assoc.keys (nodeAt path (build namespaceId es)).permission = [] :=
    List.eq_nil_iff_forall_not_mem.2 fun name hname => hnone name ((mem_keys_permission hpath).1 hname)
  exact List.map_eq_nil_iff.1 hkeys

/-- The nodes of the trees of permuted lists hold the same. -/
theorem held_get?_build (hperm : es.Perm es') (h : es.Pairwise (Apart namespaceId)) (path : List String) :
    (get? path (build namespaceId es)).map held = (get? path (build namespaceId es')).map held := by
  by_cases hpath : path = []
  · subst hpath
    rfl
  have hbound := boundTo_eq_of_perm hperm h path
  have hsome : (get? path (build namespaceId es)).isSome = (get? path (build namespaceId es')).isSome := by
    rw [Bool.eq_iff_iff, isSome_get?_build namespaceId es hpath, isSome_get?_build namespaceId es' hpath]
    simp only [hperm.mem_iff]
  have hheld : held (nodeAt path (build namespaceId es)) = held (nodeAt path (build namespaceId es')) := by
    have hroute := (describes_nodeAt_build namespaceId es hpath).route
    have hsearch := search_nodeAt_build namespaceId es hpath
    have hmethods := methods_nodeAt_build namespaceId es hpath
    rw [registered, hbound, ← registered, ← methods_nodeAt_build namespaceId es' hpath] at hmethods
    rw [hbound, ← (describes_nodeAt_build namespaceId es' hpath).route] at hroute
    rw [hbound, ← search_nodeAt_build namespaceId es' hpath] at hsearch
    have h' := (hperm.pairwise_iff fun h => h.symm).1 h
    rw [held, held, hroute, hsearch, hmethods, permission_eq_nil h hpath, permission_eq_nil h' hpath]
  rw [nodeAt, nodeAt] at hheld
  cases hn : get? path (build namespaceId es) with
  | none =>
    have hnone : get? path (build namespaceId es') = none := by
      rw [← Option.not_isSome_iff_eq_none, ← hsome, hn]
      exact Bool.false_ne_true
    rw [hnone]
  | some n =>
    rw [hn] at hsome hheld
    obtain ⟨m, hm⟩ := Option.isSome_iff_exists.1 hsome.symm
    rw [hm] at hheld ⊢
    exact congrArg some hheld

/-- **The tree does not depend on the order of the entities** if none has segments that begin with those of another
one: for a permuted list it is the same up to the order of keys, and no leaf of either tree has permissions. -/
theorem build_reordered (namespaceId : String) (hperm : es.Perm es') (hapart : es.Pairwise (Apart namespaceId)) :
    Reordered (build namespaceId es) (build namespaceId es') ∧
      ∀ ds ∈ [es, es'], ∀ path n, get? path (build namespaceId ds) = some n → n.isLeaf = true → n.permission = [] := by
  refine ⟨(uniqueKeys_build namespaceId es).reordered (uniqueKeys_build namespaceId es')
    (held_get?_build hperm hapart), fun ds hds path n hn _ => ?_⟩
  have hpath : path ≠ [] := by
    rintro rfl
    cases hn
  have hds' : ds.Pairwise (Apart namespaceId) := by
    rcases List.mem_cons.1 hds with rfl | hds
    · exact hapart
    · exact List.mem_singleton.1 hds ▸ (hperm.pairwise_iff fun h => h.symm).1 hapart
  have hnil := permission_eq_nil hds' hpath
  rwa [nodeAt, hn] at hnil

/-- Three routes in one order and in the other one: two of them share a node, whose children change places. -/
theorem build_reordered_base :
    let es : List Entity := [
      { route := "/admin/base/sys/user", methods := [{ path := "/add" }], search := some {} },
      { route := "/admin/base/comm" },
      { route := "/admin/base/sys/role", methods := [{ path := "/page" }] }]
    let sys := ["base", "sys"]
    es.Perm es.reverse ∧ es.Pairwise (Apart "admin") ∧
      Assoc.keys (nodeAt sys (build "admin" es)).children = ["user", "role"] ∧
      Assoc.keys (nodeAt sys (build "admin" es.reverse)).children = ["role", "user"] ∧
      Reordered (build "admin" es) (build "admin" es.reverse) ∧
      ∀ ds ∈ [es, es.reverse], ∀ path n,
        get? path (build "admin" ds) = some n → n.isLeaf = true → n.permission = [] := by
  intro es sys
  have hperm : es.Perm es.reverse := (List.reverse_perm es).symm
  have hapart : es.Pairwise (Apart "admin") := by decide +kernel
  exact ⟨hperm, hapart, by decide +kernel, by decide +kernel, build_reordered "admin" hperm hapart⟩

end ClientBuild.RouteTree
