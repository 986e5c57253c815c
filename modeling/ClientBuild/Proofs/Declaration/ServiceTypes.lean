import ClientBuild.Proofs.Declaration.Declared
import ClientBuild.Proofs.Declaration.Groups
import ClientBuild.Proofs.Declaration.Tree

/-!
# The types that the service object names
-/

namespace ClientBuild.Declaration

open RouteTree

variable {es : List Entity}

/-! ## Sound trees -/

mutual

/-- Has a leaf an entity and a key without braces, and any other node a word for its key and
something below it? -/
def Sound (es : List Entity) (key : String) : RouteNode → Prop
  | ⟨some r, _, _, _, _⟩ => BraceFree key.toList ∧ (entityAt? es r).isSome
  | ⟨none, _, _, _, children⟩ => IsWord key.toList ∧ children ≠ [] ∧ SoundNodes es children

def SoundNodes (es : List Entity) : List (String × RouteNode) → Prop
  | [] => True
  | (key, n) :: ns => Sound es key n ∧ SoundNodes es ns

end

theorem sound_leaf {key r : String} {n : RouteNode} (h : n.route = some r) :
    Sound es key n ↔ BraceFree key.toList ∧ (entityAt? es r).isSome := by
  obtain ⟨route, permission, search, methods, children⟩ := n
  cases h
  simp only [Sound]

theorem sound_group {key : String} {n : RouteNode} (h : n.route = none) :
    Sound es key n ↔ IsWord key.toList ∧ n.children ≠ [] ∧ SoundNodes es n.children := by
  obtain ⟨route, permission, search, methods, children⟩ := n
  cases h
  simp only [Sound]

theorem SoundNodes.alter {key : String} {f : Option RouteNode → RouteNode}
    (hnew : Sound es key (f none)) (hold : ∀ n, Sound es key n → Sound es key (f (some n))) :
    ∀ {level : RouteTree}, SoundNodes es level → SoundNodes es (Assoc.alter key f level)
  | [], _ => ⟨hnew, trivial⟩
  | (k, n) :: level, h => by
    rw [Assoc.alter]
    split
    next hk =>
      subst hk
      exact ⟨hold n h.1, h.2⟩
    next => exact ⟨h.1, SoundNodes.alter hnew hold h.2⟩

theorem alter_ne_nil {α : Type} (key : String) (f : Option α → α) (m : List (String × α)) :
    Assoc.alter key f m ≠ [] := by
  cases m with
  | nil => exact List.cons_ne_nil _ _
  | cons p m =>
    rw [Assoc.alter]
    split <;> exact List.cons_ne_nil _ _

variable {namespaceId : String} {e : Entity}

theorem insertAt_ne_nil {segments : List String} (h : segments ≠ []) (level : RouteTree) :
    insertAt namespaceId e segments level ≠ [] := by
  match segments, h with
  | [last], _ => exact alter_ne_nil _ _ _
  | s :: s' :: rest, _ => exact alter_ne_nil _ _ _

/-- **Binding an entity keeps a tree sound.** -/
theorem SoundNodes.insertAt (hentity : (entityAt? es (String.ofList (pathOf e))).isSome) :
    ∀ {segments : List String} {level : RouteTree}, (∀ s ∈ segments.dropLast, IsWord s.toList) →
      (∀ s ∈ segments, BraceFree s.toList) → SoundNodes es level →
      SoundNodes es (RouteTree.insertAt namespaceId e segments level)
  | [], _, _, _, h => h
  | [last], level, _, hfree, h => by
    have hlast : BraceFree last.toList := hfree last (List.mem_singleton_self last)
    refine h.alter ?_ fun n hn => ?_
    · exact (sound_leaf rfl).2 ⟨hlast, hentity⟩
    · cases hroute : n.route with
      | none =>
        have hbound : (RouteTree.bind namespaceId e n).route = some (String.ofList (pathOf e)) := by
          simp [RouteTree.bind, hroute]
        exact (sound_leaf hbound).2 ⟨hlast, hentity⟩
      | some r =>
        have hbound : (RouteTree.bind namespaceId e n).route = some r := by
          simp [RouteTree.bind, hroute]
        exact (sound_leaf hbound).2 ((sound_leaf hroute).1 hn)
  | s :: s' :: rest, level, hword, hfree, h => by
    rw [List.dropLast_cons_of_ne_nil (List.cons_ne_nil _ _)] at hword
    obtain ⟨hs, hword⟩ := List.forall_mem_cons.1 hword
    obtain ⟨_, hfree⟩ := List.forall_mem_cons.1 hfree
    have hbelow : ∀ {children}, SoundNodes es children →
        SoundNodes es (RouteTree.insertAt namespaceId e (s' :: rest) children) :=
      SoundNodes.insertAt hentity hword hfree
    have hne : ∀ children, RouteTree.insertAt namespaceId e (s' :: rest) children ≠ [] :=
      insertAt_ne_nil (List.cons_ne_nil s' rest)
    refine h.alter ?_ fun n hn => ?_
    · exact (sound_group rfl).2 ⟨hs, hne [], hbelow trivial⟩
    · cases hroute : n.route with
      | none =>
        obtain ⟨hkey, _, hchildren⟩ := (sound_group hroute).1 hn
        exact (sound_group (by exact hroute)).2 ⟨hkey, hne n.children, hbelow hchildren⟩
      | some r => exact (sound_leaf (by exact hroute)).2 ((sound_leaf hroute).1 hn)

/-- The tree of entities whose routes begin with a slash and have words for their segments, except
that the last one is any text without braces. -/
theorem soundNodes_build (hroutes : ∀ e ∈ es, e.route.toList.head? = some '/')
    (hwords : ∀ e ∈ es, ∀ s ∈ (segmentsOf namespaceId e).dropLast, IsWord s.toList)
    (hfree : ∀ e ∈ es, ∀ s ∈ segmentsOf namespaceId e, BraceFree s.toList) :
    SoundNodes es (RouteTree.build namespaceId es) := by
  have hentity : ∀ e ∈ es, (entityAt? es (String.ofList (pathOf e))).isSome := by
    intro e he
    obtain ⟨path, hpath⟩ := List.head?_eq_some_iff.1 (hroutes e he)
    have hslash : pathOf e = path := by
      rw [pathOf, hpath]
      simp [Text.after?]
    refine List.find?_isSome.2 ⟨e, he, ?_⟩
    rw [hslash, beq_iff_eq, ← String.toList_inj, hpath, String.toList_append]
    simp
  have hfold : ∀ ds : List Entity, ds ⊆ es → ∀ level, SoundNodes es level →
      SoundNodes es
        (ds.foldl (fun t e => RouteTree.insertAt namespaceId e (segmentsOf namespaceId e) t) level) := by
    intro ds
    induction ds with
    | nil => exact fun _ level h => h
    | cons d ds ih =>
      intro hsub level h
      obtain ⟨hd, hds⟩ := List.cons_subset.1 hsub
      exact ih hds _ (h.insertAt (hentity d hd) (hwords d hd) (hfree d hd))
  exact hfold es (List.Subset.refl es) [] trivial

/-! ## The parts of a sound tree -/

theorem plainName_of_word {s : List Char} (h : IsWord s) : plainName s = s :=
  List.filter_eq_self.2 fun c hc => by simp [(isNameChar_of_word (h.2 c hc)).1]

/-- Below a lawful name, every key without braces has a lawful name. -/
theorem isLawful_nodeName {above : List Char} {key : String} (habove : isLawful above = true)
    (hkey : BraceFree key.toList) : isLawful (nodeName above key) = true := by
  obtain ⟨hne, hall⟩ := isLawful_iff.1 habove
  rw [nodeName_eq, isLawful_iff]
  refine ⟨fun h => hne (List.append_eq_nil_iff.1 h).1, fun c hc => ?_⟩
  rcases List.mem_append.1 hc with hc | hc
  · exact hall c hc
  · have hname : ∀ c ∈ plainName key.toList, IsNameChar c := by
      refine fun c hc => ⟨isNameNoise_of_mem_plainName hc, ?_, ?_⟩
      · rintro rfl
        exact hkey.1 (List.mem_filter.1 hc).1
      · rintro rfl
        exact hkey.2 (List.mem_filter.1 hc).1
    have hc := isNameChar_of_mem_capitalize hname c hc
    exact ⟨hc.2.1, hc.2.2, hc.ne (by decide)⟩

theorem Sound.braceFree {key : String} {n : RouteNode} (h : Sound es key n) :
    BraceFree key.toList := by
  cases hroute : n.route with
  | none => exact braceFree_of_word ((sound_group hroute).1 h).1
  | some r => exact ((sound_leaf hroute).1 h).1

theorem parts_ne_nil {above : List Char} (habove : isLawful above = true) {ns : RouteTree}
    (hns : ns ≠ []) (h : SoundNodes es ns) : parts es above ns ≠ [] := by
  obtain ⟨⟨key, n⟩, ns, rfl⟩ := List.exists_cons_of_ne_nil hns
  have hlawful := isLawful_nodeName habove h.1.braceFree
  have hpart : part? es above key n ≠ none := by
    obtain ⟨route, permission, search, methods, children⟩ := n
    cases route with
    | none => simp [part?, hlawful]
    | some r =>
      obtain ⟨d, hd⟩ := Option.isSome_iff_exists.1 ((sound_leaf rfl).1 h.1).2
      simp [part?, hlawful, hd]
  rw [parts]
  split
  next => exact List.cons_ne_nil _ _
  next hnone => exact absurd hnone hpart

mutual

theorem liftable_of_part? : ∀ {above : List Char} (key : String) (n : RouteNode) {p : Part},
    Sound es key n → part? es above key n = some p → p.Liftable
  | above, key, ⟨route, _, _, _, children⟩, p, h, hp => by
      simp only [part?] at hp
      split at hp
      next => cases hp
      next hlawful =>
        have hlawful : isLawful (nodeName above key) = true := by simpa using hlawful
        cases route with
        | none =>
          obtain ⟨hkey, hne, hchildren⟩ := (sound_group rfl).1 h
          cases hp
          refine ⟨?_, ?_, parts_ne_nil hlawful hne hchildren, liftableParts_parts children hchildren⟩
          · rwa [ofChars, String.toList_ofList, plainName_of_word hkey]
          · simp only [ofChars, String.toList_ofList, plainName_of_word hkey]
        | some r =>
          obtain ⟨e, _, rfl⟩ := Option.map_eq_some_iff.1 hp
          trivial

/-- **The groups of a sound tree can be lifted.** -/
theorem liftableParts_parts : ∀ {above : List Char} (ns : List (String × RouteNode)),
    SoundNodes es ns → LiftableParts (parts es above ns)
  | _, [], _ => trivial
  | above, (key, n) :: ns, h => by
      rw [parts]
      split
      next p hp => exact ⟨liftable_of_part? key n h.1 hp, liftableParts_parts ns h.2⟩
      next => exact liftableParts_parts ns h.2

end

/-! ## Where the types come from -/

/-- The types that methods speak of: the names of the entities that have a name and methods. -/
def methodTypes (cs : List Controller) : List String :=
  (cs.filter fun c => !((declaredMethods c.entity).isEmpty || c.entity.name.isEmpty)).map
    fun c => c.entity.name

theorem methodTypes_append (a b : List Controller) :
    methodTypes (a ++ b) = methodTypes a ++ methodTypes b := by
  simp [methodTypes]

theorem types_leaf_subset (key name : String) (e : Entity) :
    (ServiceObject.leaf key name e).types ⊆ [name] ++ methodTypes [⟨name, e⟩] := by
  intro type htype
  rcases List.mem_append.1 htype with htype | htype
  · split at htype
    next => cases htype
    next h =>
      refine List.mem_append_right _ ?_
      rw [methodTypes, List.filter_cons_of_pos (by simpa using h)]
      exact htype
  · exact List.mem_append_left _ htype

mutual

theorem types_ofNode_subset (es : List Entity) : ∀ (above : List Char) (key : String) (n : RouteNode),
    (ServiceObject.ofNode es above key n).types ⊆
      (part? es above key n).elim [] fun p => p.casts ++ methodTypes p.controllers
  | above, key, ⟨route, _, _, _, children⟩ => by
      simp only [ServiceObject.ofNode, part?]
      by_cases hskip : key == "swagger"
      · simp [hskip]
      · by_cases hlawful : isLawful (nodeName above key) = true
        · cases route with
          | none =>
            have hinner := types_ofNodes_subset es (nodeName above key) children
            simp only [hskip, hlawful, Bool.not_true, Bool.or_self]
            intro type htype
            rcases List.mem_append.1 htype with htype | htype
            · rcases List.mem_append.1 (hinner htype) with htype | htype
              · exact List.mem_append_left _ (List.mem_append_left _ htype)
              · exact List.mem_append_right _ htype
            · exact List.mem_append_left _ (List.mem_append_right _ htype)
          | some r =>
            simp only [hskip, hlawful, Bool.not_true, Bool.or_self]
            cases entityAt? es r with
            | none => exact List.nil_subset _
            | some e => exact types_leaf_subset _ _ e
        · simp [hlawful]

/-- The service object names the types that its parts are cast to and those of their methods. -/
theorem types_ofNodes_subset (es : List Entity) : ∀ (above : List Char)
    (ns : List (String × RouteNode)),
    (ServiceObject.ofNodes es above ns).types ⊆
      castsOf (parts es above ns) ++ methodTypes (controllersOf (parts es above ns))
  | _, [] => List.nil_subset _
  | above, (key, n) :: ns => by
      have hfirst := types_ofNode_subset es above key n
      have hothers := types_ofNodes_subset es above ns
      simp only [ServiceObject.ofNodes, ServiceObject.append, parts]
      cases hpart : part? es above key n with
      | none =>
        rw [hpart] at hfirst
        exact List.append_subset.2 ⟨List.Subset.trans hfirst (List.nil_subset _), hothers⟩
      | some p =>
        rw [hpart] at hfirst
        simp only [castsOf, controllersOf, methodTypes_append]
        refine List.append_subset.2 ⟨fun type htype => ?_, fun type htype => ?_⟩
        · exact (List.mem_append.1 (hfirst htype)).elim
            (fun h => List.mem_append_left _ (List.mem_append_left _ h))
            fun h => List.mem_append_right _ (List.mem_append_left _ h)
        · exact (List.mem_append.1 (hothers htype)).elim
            (fun h => List.mem_append_left _ (List.mem_append_right _ h))
            fun h => List.mem_append_right _ (List.mem_append_right _ h)

end

mutual

theorem Part.Liftable.casts : ∀ {p : Part}, p.Liftable → ∀ type ∈ p.casts,
    type ∈ p.controllers.map (·.name) ∨
      ∃ key ∈ p.groupKeys, type = ofChars (interfaceName key.toList)
  | .leaf _ _, _, _, h => Or.inl h
  | .group _ _ _, ⟨_, htype, _, hlift⟩, type, h => by
      rcases List.mem_append.1 h with h | h
      · refine (LiftableParts.casts hlift type h).imp_right fun ⟨key, hkey, heq⟩ => ?_
        exact ⟨key, List.mem_cons_of_mem _ hkey, heq⟩
      · exact Or.inr ⟨_, List.mem_cons_self, (List.mem_singleton.1 h).trans htype⟩

/-- A part is cast to a controller, or to the interface of a group's key. -/
theorem LiftableParts.casts : ∀ {ps : List Part}, LiftableParts ps → ∀ type ∈ castsOf ps,
    type ∈ (controllersOf ps).map (·.name) ∨
      ∃ key ∈ groupKeysOf ps, type = ofChars (interfaceName key.toList)
  | [], _, _, h => nomatch h
  | p :: ps, hlift, type, h => by
      rw [controllersOf, List.map_append]
      rcases List.mem_append.1 h with h | h
      · refine (Part.Liftable.casts hlift.1 type h).imp (List.mem_append_left _) ?_
        exact fun ⟨key, hkey, heq⟩ => ⟨key, List.mem_append_left _ hkey, heq⟩
      · refine (LiftableParts.casts hlift.2 type h).imp (List.mem_append_right _) ?_
        exact fun ⟨key, hkey, heq⟩ => ⟨key, List.mem_append_right _ hkey, heq⟩

end

mutual

theorem mem_of_mem_controllers : ∀ {above : List Char} (key : String) (n : RouteNode) {p : Part},
    part? es above key n = some p → ∀ c ∈ p.controllers, c.entity ∈ es
  | above, key, ⟨route, _, _, _, children⟩, p, hp, c, hc => by
      simp only [part?] at hp
      split at hp
      next => cases hp
      next =>
        cases route with
        | none =>
          cases hp
          exact mem_of_mem_controllersOf children c hc
        | some r =>
          obtain ⟨e, he, rfl⟩ := Option.map_eq_some_iff.1 hp
          rw [List.mem_singleton.1 hc]
          exact List.mem_of_find?_eq_some he

theorem mem_of_mem_controllersOf : ∀ {above : List Char} (ns : List (String × RouteNode)),
    ∀ c ∈ controllersOf (parts es above ns), c.entity ∈ es
  | _, [], _, hc => nomatch hc
  | above, (key, n) :: ns, c, hc => by
      rw [parts] at hc
      split at hc
      next p hp =>
        exact (List.mem_append.1 hc).elim (mem_of_mem_controllers key n hp c)
          (mem_of_mem_controllersOf ns c)
      next => exact mem_of_mem_controllersOf ns c hc

end

mutual

theorem Part.Liftable.isWord : ∀ {p : Part}, p.Liftable → ∀ key ∈ p.groupKeys, IsWord key.toList
  | .leaf _ _, _, _, hk => nomatch hk
  | .group _ _ _, ⟨hword, _, _, hlift⟩, k, hk => by
      rcases List.mem_cons.1 hk with rfl | hk
      · exact hword
      · exact LiftableParts.isWord hlift k hk

theorem LiftableParts.isWord : ∀ {ps : List Part}, LiftableParts ps →
    ∀ key ∈ groupKeysOf ps, IsWord key.toList
  | [], _, _, hk => nomatch hk
  | _ :: _, h, k, hk =>
      (List.mem_append.1 hk).elim (Part.Liftable.isWord h.1 k) (LiftableParts.isWord h.2 k)

end

/-! ## Every type is declared -/

variable {types : TypeMap} {tree : RouteTree} {dictKeys : Option (List String)}

/-- A name without noise and braces is declared as it is. -/
theorem lawful_of_names {e : Entity} (hne : e.name ≠ "")
    (h : ∀ c ∈ e.name.toList, IsNameChar c) :
    hasLawfulName e = true ∧ entityName e = e.name := by
  have hplain : plainName e.name.toList = e.name.toList :=
    List.filter_eq_self.2 fun c hc => by simp [(h c hc).1]
  have hlawful : isLawful e.name.toList = true :=
    isLawful_iff.2 ⟨by simpa using hne, fun c hc => ⟨(h c hc).2.1, (h c hc).2.2, (h c hc).ne (by decide)⟩⟩
  rw [hasLawfulName, entityName, hplain, hlawful, ofChars, String.ofList_toList]
  exact ⟨rfl, rfl⟩

theorem exists_declaredEntity {seen : List String} {e : Entity} (he : e ∈ es)
    (hlawful : hasLawfulName e = true) :
    entityName e ∈ seen ∨ ∃ d ∈ (declaredEntities seen es).1, entityName d = entityName e := by
  induction es generalizing seen with
  | nil => cases he
  | cons d es ih =>
    rw [declaredEntities]
    rcases List.mem_cons.1 he with rfl | he
    · simp only [hlawful, Bool.not_true]
      split
      next h => cases h
      next =>
        split
        next hseen => exact Or.inl (List.contains_iff_mem.1 hseen)
        next => exact Or.inr ⟨e, List.mem_cons_self, rfl⟩
    · split
      next => exact ih he
      next =>
        split
        next => exact ih he
        next =>
          rcases @ih (entityName d :: seen) he with hseen | ⟨d', hd', heq⟩
          · rcases List.mem_cons.1 hseen with heq | hseen
            · exact Or.inr ⟨d, List.mem_cons_self, heq.symm⟩
            · exact Or.inl hseen
          · exact Or.inr ⟨d', List.mem_cons_of_mem _ hd', heq⟩

theorem exists_entityText (t : Target) (types : TypeMap) (e : Entity) :
    ∃ s, '}' ∈ s ∧ (entityText t types e ++ "\n").toList =
      (exportWord t).toList ++ "interface ".toList ++ (entityName e).toList ++ " \x7b".toList ++ s :=
  ⟨_, close_mem_interface _, toList_interface (exportWord t) (entityName e) [_, _]⟩

theorem exists_controllerText (t : Target) (controller : String) (e : Entity) :
    ∃ s, '}' ∈ s ∧ (controllerText t controller e ++ "\n").toList =
      (exportWord t).toList ++ "interface ".toList ++ controller.toList ++ " \x7b".toList ++ s :=
  ⟨_, close_mem_interface _, toList_interface (exportWord t) controller [_, _]⟩

/-- An interface in front of the service type is declared. -/
theorem mem_declaredNames_lead {text : String} {name s : List Char} (hname : IsName name)
    (h : text ∈ leadTexts .uniappX types es tree dictKeys) (hclose : '}' ∈ s)
    (htext : text.toList = "export interface ".toList ++ name ++ " \x7b".toList ++ s)
    (back : List Char) :
    String.ofList name ∈ declaredNames "export "
      (((leadTexts .uniappX types es tree dictKeys).map fun s => interfacesToTypes s.toList).flatten ++
        back) := by
  obtain ⟨opening, y, hopens, _, hform⟩ := exists_opening hname hclose
  obtain ⟨before, after, hsplit, hbefore⟩ := exists_split_leadTexts h (Or.inl rfl) back
  have hpiece : form .uniappX text.toList = opening ++ y := by rw [htext, ← hform]; rfl
  have hwhole : ((leadTexts .uniappX types es tree dictKeys).map
      fun s => interfacesToTypes s.toList).flatten ++ back =
        before ++ (opening ++ (y ++ after)) := by
    rw [hpiece] at hsplit
    simpa [form, Target.isCrossPlatform] using hsplit
  rw [hwhole]
  exact mem_declaredNames hname (by decide) hopens hbefore _

theorem mem_declaredNames_entity {d : Entity} (hd : d ∈ (declaredEntities [] es).1)
    (back : List Char) :
    entityName d ∈ declaredNames "export "
      (((leadTexts .uniappX types es tree dictKeys).map fun s => interfacesToTypes s.toList).flatten ++
        back) := by
  have hmem : entityText .uniappX types d ++ "\n" ∈ leadTexts .uniappX types es tree dictKeys :=
    List.mem_append_left _ (List.mem_append_left _ (List.mem_append_left _ (List.mem_map_of_mem hd)))
  obtain ⟨s, hclose, hs⟩ := exists_entityText .uniappX types d
  have hdeclared := mem_declaredNames_lead
    (isName_entityName (hasLawfulName_of_mem_declaredEntities hd).1) hmem hclose hs
  rw [String.ofList_toList] at hdeclared
  exact hdeclared back

theorem mem_declaredNames_controller {c : Controller}
    (hc : c ∈ (walkNodes es [] tree).controllers) (back : List Char) :
    c.name ∈ declaredNames "export "
      (((leadTexts .uniappX types es tree dictKeys).map fun s => interfacesToTypes s.toList).flatten ++
        back) := by
  have hmem : controllerText .uniappX c.name c.entity ++ "\n" ∈
      leadTexts .uniappX types es tree dictKeys :=
    List.mem_append_right _ (List.mem_map_of_mem hc)
  obtain ⟨s, hclose, hs⟩ := exists_controllerText .uniappX c.name c.entity
  have hdeclared := mem_declaredNames_lead (isName_controller hc) hmem hclose hs
  rw [String.ofList_toList] at hdeclared
  exact hdeclared back

/-- A key that is lifted has its interface declared. -/
theorem mem_declaredNames_lifted {shapes : List (String × List Char)} {key : String}
    (hkey : key ∈ Assoc.keys shapes) (hname : ∀ c ∈ key.toList, IsNameChar c)
    (front back : List Char) :
    ofChars (interfaceName key.toList) ∈ declaredNames "export "
      (front ++ '\n' ::
        ((shapes.map fun p => interfacesToTypes (interfaceText p.1 p.2)).flatten ++ back)) := by
  obtain ⟨⟨k, shape⟩, hmem, heq⟩ := List.mem_map.1 hkey
  have heq : k = key := heq
  subst heq
  obtain ⟨before, after, rfl⟩ := List.append_of_mem hmem
  obtain ⟨opening, y, hopens, _, hpiece⟩ := exists_interfaceText hname shape
  have hsplit : front ++ '\n' :: (((before ++ (k, shape) :: after).map
      fun p => interfacesToTypes (interfaceText p.1 p.2)).flatten ++ back) =
        (front ++ '\n' :: (before.map fun p => interfacesToTypes (interfaceText p.1 p.2)).flatten ++
          ['\n']) ++ (opening ++ (y ++ ((after.map
            fun p => interfacesToTypes (interfaceText p.1 p.2)).flatten ++ back))) := by
    rw [List.map_append, List.map_cons, hpiece]
    simp
  rw [hsplit]
  exact mem_declaredNames (isName_interfaceName hname) (by decide) hopens (Or.inr ⟨_, rfl⟩) _

/-- **Every type of the service object is declared.**  Let the routes begin with a slash and the
names of entities with methods have neither noise nor braces, let the segments above a leaf be words
and no leaf have a brace in its key.  Then every type that the service object of the tree names is
declared by an exported interface or type. -/
theorem service_types_declared (namespaceId : String)
    (hheader : HeaderFree types es (RouteTree.build namespaceId es) dictKeys)
    (hroutes : ∀ e ∈ es, e.route.toList.head? = some '/')
    (hnames : ∀ e ∈ es, declaredMethods e ≠ [] → ∀ c ∈ e.name.toList, IsNameChar c)
    (hwords : ∀ e ∈ es, ∀ s ∈ (segmentsOf namespaceId e).dropLast, IsWord s.toList)
    (hfree : ∀ e ∈ es, ∀ s ∈ segmentsOf namespaceId e, BraceFree s.toList) :
    ∃ out, synthesize .uniappX types es (RouteTree.build namespaceId es) dictKeys = .ok out ∧
      ∀ type ∈ (ServiceObject.build (RouteTree.build namespaceId es) es).types,
        type ∈ declaredNames "export " out.text.toList := by
  obtain ⟨level, shapes, out, _, hshapes, hok, _, htext⟩ := exists_pieces hheader
  have hlift := @liftableParts_parts es [] _ (soundNodes_build hroutes hwords hfree)
  have hnamed := namedParts_root es (RouteTree.build namespaceId es)
  have hcontrollers := (walkNodes_eq es [] (RouteTree.build namespaceId es)).2
  refine ⟨out, hok, fun type htype => ?_⟩
  have htype := types_ofNodes_subset es [] _ (Text.mem_distinct.1 htype)
  rw [htext]
  rcases List.mem_append.1 htype with hcast | hmethod
  · rcases hlift.casts type hcast with hcontroller | ⟨key, hkey, rfl⟩
    · obtain ⟨c, hc, rfl⟩ := List.mem_map.1 hcontroller
      exact mem_declaredNames_controller (hcontrollers ▸ hc) _
    · exact mem_declaredNames_lifted (mem_keys_of_collect_lines hnamed hlift hshapes key hkey)
        (fun c hc => isNameChar_of_word ((hlift.isWord key hkey).2 c hc)) _ _
  · obtain ⟨c, hc, rfl⟩ := List.mem_map.1 hmethod
    obtain ⟨hc, hne⟩ := List.mem_filter.1 hc
    have hentity := mem_of_mem_controllersOf _ c hc
    have hne : declaredMethods c.entity ≠ [] ∧ c.entity.name ≠ "" := by simpa using hne
    obtain ⟨hlawful, heq⟩ := lawful_of_names hne.2 (hnames c.entity hentity hne.1)
    obtain hseen | ⟨d, hd, hsame⟩ := @exists_declaredEntity es [] _ hentity hlawful
    · cases hseen
    rw [← heq, ← hsame]
    exact mem_declaredNames_entity hd _

/-- Two entities below one segment. -/
def centerEntities : List Entity :=
  [{ route := "/app/user-center/login", name := "LoginEntity"
     methods := [{ path := "/check", method := "post" }] },
   { route := "/app/user-center/info", name := "User Info" }]

theorem service_types_declared_center :
    HeaderFree (.ofRules []) centerEntities (RouteTree.build "app" centerEntities) none ∧
      (ServiceObject.build (RouteTree.build "app" centerEntities) centerEntities).types =
        ["LoginEntity", "UserCenterLogin", "UserCenterInfo", "UserCenterInterface"] ∧
      ∃ out, synthesize .uniappX (.ofRules []) centerEntities (RouteTree.build "app" centerEntities)
          none = .ok out ∧
        ∀ type ∈ (ServiceObject.build (RouteTree.build "app" centerEntities) centerEntities).types,
          type ∈ declaredNames "export " out.text.toList := by
  have hfree : HeaderFree (.ofRules []) centerEntities (RouteTree.build "app" centerEntities) none := by
    unfold HeaderFree
    decide +kernel
  have hroutes : ∀ e ∈ centerEntities, e.route.toList.head? = some '/' := by decide
  have hnames : ∀ e ∈ centerEntities, declaredMethods e ≠ [] → ∀ c ∈ e.name.toList, IsNameChar c := by
    decide
  have hwords : ∀ e ∈ centerEntities, ∀ s ∈ (segmentsOf "app" e).dropLast, IsWord s.toList := by
    decide
  have hplain : ∀ e ∈ centerEntities, ∀ s ∈ segmentsOf "app" e, BraceFree s.toList := by
    simp only [BraceFree]
    decide
  exact ⟨hfree, by decide +kernel, service_types_declared "app" hfree hroutes hnames hwords hplain⟩

/-- An entity with a blank in its name. -/
def baseEntity : Entity where
  route := "/app/user"
  name := "Base User"
  methods := [{ path := "/add", method := "post" }]

theorem space_not_mem {word type : String} {text : List Char} (h : type ∈ declaredNames word text) :
    ' ' ∉ type.toList := by
  obtain ⟨line, _, hline⟩ := List.mem_filterMap.1 h
  obtain ⟨s, _, hs⟩ := Option.bind_eq_some_iff.1 hline
  obtain ⟨r, _, rfl⟩ := Option.map_eq_some_iff.1 hs
  rw [String.toList_ofList]
  intro hmem
  simpa using List.all_eq_true.1 (List.all_takeWhile (p := (· != ' ')) (l := r)) _ hmem

/-- **The service object names an entity as the backend does**, not as it is declared. -/
theorem service_type_undeclared :
    "Base User" ∈ (ServiceObject.build (RouteTree.build "app" [baseEntity]) [baseEntity]).types ∧
      ∃ out, synthesize .uniappX (.ofRules []) [baseEntity] (RouteTree.build "app" [baseEntity]) none =
          .ok out ∧
        "BaseUser" ∈ declaredNames "export " out.text.toList ∧
        "Base User" ∉ declaredNames "export " out.text.toList := by
  have hfree : HeaderFree (.ofRules []) [baseEntity] (RouteTree.build "app" [baseEntity]) none := by
    unfold HeaderFree
    decide +kernel
  obtain ⟨_, _, out, _, _, hok, _, htext⟩ := exists_pieces hfree
  have hlawful : hasLawfulName baseEntity = true := by decide
  have hdeclared : baseEntity ∈ (declaredEntities [] [baseEntity]).1 := by
    simp [declaredEntities, hlawful]
  have hname : entityName baseEntity = "BaseUser" := by decide
  refine ⟨by decide +kernel, out, hok, ?_, fun h => absurd (by decide) (space_not_mem h)⟩
  rw [htext, ← hname]
  exact mem_declaredNames_entity hdeclared _

end ClientBuild.Declaration
