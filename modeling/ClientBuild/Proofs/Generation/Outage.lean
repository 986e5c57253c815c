import ClientBuild.Proofs.Declaration.Bare
import ClientBuild.Proofs.Generation.History
import ClientBuild.Proofs.Schema.Reread

/-!
# Declarations in an outage

A run that the backend does not answer works on what the cache holds of the last entities.  The
cross-platform target keeps all that declarations use, so such a run leaves them as they are.  The
short form of the other targets has no columns, summaries or parameters: their declarations stay as
they are if nothing of that kind was in them, and otherwise become those of the short forms
(`declarations_after_outage`).
-/

namespace ClientBuild

open Json Declaration

/-! ## What the cache keeps of declarations -/

theorem Entity.bare_reread (e : Entity) : e.reread.bare = e.bare := by
  simp only [reread, bare, List.map_map]
  rfl

theorem Entity.bare_short_reread (e : Entity) : e.reread.short.bare = e.short.bare := by
  simp only [reread, short, bare, List.map_map]
  rfl

theorem Cache.bare_stored_reread (t : Target) (e : Entity) :
    (stored t e.reread).bare = (stored t e).bare := by
  unfold stored
  split
  · exact e.bare_reread
  · exact e.bare_short_reread

/-- The short form of an entity without columns, and of methods without summaries and parameters,
has all that declarations use. -/
theorem Entity.bare_short {e : Entity} (hcolumns : e.allColumns = [])
    (hmethods : ∀ m ∈ e.methods, m.summary.filter hasText = none ∧
      (m.parameters.filter fun p => isLawful p.name.toList) = []) : e.short.bare = e.bare := by
  obtain ⟨hcs, hps⟩ := List.append_eq_nil_iff.1 hcolumns
  have hms : (e.methods.map Method.short).map Method.bare = e.methods.map Method.bare := by
    rw [List.map_map]
    refine List.map_congr_left fun m hm => ?_
    obtain ⟨hsummary, hparameters⟩ := hmethods m hm
    simp only [Function.comp, Method.bare, Method.short, hsummary, hparameters]
    rfl
  simp only [short, bare, hcs, hps, hms]

namespace Generator

variable {g : Generator} {env env' : Environment} {s : Store}

/-- Entities of which declarations use the same have the same declarations. -/
theorem declarationText?_of_bare {es es' : List Entity}
    (h : es'.map Entity.bare = es.map Entity.bare) :
    g.declarationText? env es' = g.declarationText? env es := by
  have hempty : es'.isEmpty = es.isEmpty := by
    rw [← List.isEmpty_map (f := Entity.bare), h, List.isEmpty_map]
  have htree : ∀ es, (g.published es).tree = RouteTree.build g.settings.namespaceId es :=
    fun _ => rfl
  simp only [declarationText?, hempty, htree]
  rw [← synthesize_bare _ _ _ es', h, synthesize_bare]

theorem declarationText?_nil : g.declarationText? env [] = none := by
  unfold declarationText?
  split
  · rfl
  · rfl

/-! ## The declarations behind one run -/

/-- Writing the cache leaves the declarations as they are. -/
theorem read?_declarations_cacheWrite {s' : Store} {es : List Entity} {text : String}
    {r : Except Failure Bool}
    (h : Cache.write s g.cachePath g.settings.target es = (s', r))
    (hs : s.read? g.declarationPath = some text) : s'.read? g.declarationPath = some text := by
  unfold Cache.write at h
  split at h
  next =>
    cases h
    exact hs
  next =>
    exact Store.read?_writeIfChanged_of_ne isName_cache (isName_declarations _)
      (declarationFile_ne_cache _).symm h hs

theorem read?_writeText_cases {s' : Store} {es : List Entity} {text : String}
    {r : Except Failure Bool} (h : g.writeText env s es = (s', r))
    (hs : s.read? g.declarationPath = some text) :
    s'.read? g.declarationPath = some text ∨
      ∃ new, g.declarationText? env es = some new ∧ s'.read? g.declarationPath = some new := by
  unfold writeText at h
  split at h
  next =>
    cases h
    exact .inl hs
  next new hnew =>
    rcases Store.writeIfChanged_cases h with ⟨_, rfl, _⟩ | ⟨hgrown, _⟩ | ⟨_, _, _, _, _, rfl⟩
    · exact .inl hs
    · exact .inl (hgrown.read? hs)
    · exact .inr ⟨new, hnew, Store.read?_writeIfChanged h⟩

theorem read?_writeText {s' : Store} {es : List Entity} {b : Bool}
    (h : g.writeText env s es = (s', .ok b)) :
    s'.read? g.declarationPath =
      (g.declarationText? env es).or (s.read? g.declarationPath) := by
  unfold writeText at h
  split at h
  next hnone =>
    cases h
    rw [hnone, Option.none_or]
  next new hnew => rw [hnew, Option.some_or, Store.read?_writeIfChanged h]

/-- Behind a run the declarations are what they were before, or those of its entities. -/
theorem read?_declarations_run {text : String} (hs : s.read? g.declarationPath = some text) :
    (g.run env s).store.read? g.declarationPath = some text ∨
      ∃ new, g.declarationText? env (g.entities env s) = some new ∧
        (g.run env s).store.read? g.declarationPath = some new := by
  rcases run_cases rfl with ⟨s', e, hcache, hstore, _⟩ | ⟨s', updated, hcache, hfinish⟩
  · rw [hstore]
    exact .inl (read?_declarations_cacheWrite hcache hs)
  · have hs' := read?_declarations_cacheWrite hcache hs
    rcases finishRun_cases hfinish with ⟨_, htext, _⟩ | ⟨_, htext, _⟩ | ⟨_, htext, _, _, _, _⟩
    · exact read?_writeText_cases htext hs'
    · exact read?_writeText_cases htext hs'
    · exact read?_writeText_cases htext hs'

/-! ## A schema with a column -/

/-- An answer with one entity, which has a column. -/
def columnAnswer : Json :=
  .object
    [("code", .number (.integer 1000)),
     ("data", .object [("base", .array
       [.object
         [("prefix", .string "/admin/a"), ("name", .string "A"),
          ("columns", .array [.object
            [("propertyName", .string "age"), ("type", .string "int"),
             ("source", .string "a.age")]])]])])]

theorem readsBack_columnAnswer : columnAnswer.ReadsBack depthLimit := by
  have hcode : (Number.integer 1000).ReadsBack := readsBack_integer 126 ⟨by decide, by decide⟩
  simpa [columnAnswer, depthLimit, ReadsBack, ItemsReadBack, MembersReadBack] using hcode

/-- The entity of `columnAnswer`. -/
def columnEntity : Entity :=
  { route := "/admin/a", name := "A",
    columns := [{ propertyName := "age", type := "int", source := "a.age" }] }

theorem schemaOfAnswer?_columnAnswer : schemaOfAnswer? columnAnswer = some [columnEntity] := rfl

/-- What a run finds when the backend answers only the question for the schema, if that, and texts
are left as they are. -/
def plainly (g : Generator) (answer : Option Json) : Environment where
  answer := fun url => if url = g.settings.schemaUrl then answer else none
  layout := .ok

/-- The first run writes the declarations of the entity. -/
theorem exists_report_columnAnswer : ∃ report p,
    (standard.run (standard.plainly (some columnAnswer)) {}).result = .ok (report, p) ∧
      report.declarationWritten = true := by
  have hok : (standard.run (standard.plainly (some columnAnswer)) {}).result.toOption.map
      (fun r => r.1.declarationWritten) = some true := by decide +kernel
  cases hresult : (standard.run (standard.plainly (some columnAnswer)) {}).result with
  | error e =>
    rw [hresult] at hok
    cases hok
  | ok r =>
    rw [hresult] at hok
    exact ⟨r.1, r.2, rfl, Option.some.inj hok⟩

/-! ## An outage -/

/-- The cache of a list of entities and their declarations are both in place. -/
structure Declared (g : Generator) (env : Environment) (s : Store) (es : List Entity)
    (text : String) : Prop where
  normalized : Normalized g.settings.target es
  cache : s.read? g.cachePath = some (Cache.content g.settings.target es)
  declares : g.declarationText? env es = some text
  declarations : s.read? g.declarationPath = some text

/-- The second run finds what the first one found, except that it gets no answer for the schema. -/
structure Outage (g : Generator) (env env' : Environment) : Prop where
  schema : env'.answer g.settings.schemaUrl = none
  dict : env'.answer g.settings.dictUrl = env.answer g.settings.dictUrl
  layout : env'.layout = env.layout

theorem Outage.entities (hout : g.Outage env env') :
    g.entities env' s = normalize g.settings.target (Cache.read s g.cachePath) := by
  simp only [Generator.entities, fetched, fetchSchema, hout.schema, Option.bind_none]

/-- A run that wrote declarations leaves the cache of its entities beside them. -/
theorem exists_declared_of_written {report : Report} {p : Published} {decoded : List Entity}
    (hfirst : (g.run env s).result = .ok (report, p)) (hwritten : report.declarationWritten = true)
    (hanswer : (env.answer g.settings.schemaUrl).bind schemaOfAnswer? = some decoded) :
    ∃ text, g.Declared env (g.run env s).store (normalize g.settings.target decoded) text := by
  have hw : (g.run env s).writeFailed = false := by rw [RunEnd.writeFailed, hfirst]
  obtain ⟨s', updated, written, hcache, htext, hreport⟩ := exists_writes_of_run hw
  obtain ⟨_, _, _, _, hb⟩ := hreport report p hfirst
  have hb : written = true := hb.symm.trans hwritten
  have hentities : g.entities env s = normalize g.settings.target decoded :=
    congrArg Prod.fst (fetched_of_some hanswer)
  obtain ⟨v, _, hv⟩ := Option.bind_eq_some_iff.1 hanswer
  have hn := normalized_normalize (t := g.settings.target) (wellFormed_of_schemaOfAnswer? hv)
  rw [hentities] at hcache htext
  subst hb
  have hread := read?_writeText htext
  cases hnew : g.declarationText? env (normalize g.settings.target decoded) with
  | none =>
    simp only [writeText, hnew] at htext
    cases (Prod.mk.inj htext).2
  | some text =>
    rw [hnew, Option.some_or] at hread
    refine ⟨text, hn, read?_cache_writeText htext ?_, hnew, hread⟩
    unfold Cache.write at hcache
    split at hcache
    next hempty =>
      rw [List.isEmpty_iff.1 hempty, declarationText?_nil] at hnew
      cases hnew
    next => exact Store.read?_writeIfChanged hcache

namespace Declared

variable {es : List Entity} {text : String}

/-- Whatever an outage declares are the declarations of what was stored. -/
theorem declares_stored (h : g.Declared env s es text) (hout : g.Outage env env') {new : String}
    (hnew : g.declarationText? env' (g.entities env' s) = some new) :
    g.declarationText? env (es.map (Cache.stored g.settings.target)) = some new := by
  rw [hout.entities, declarationText?_congr hout.dict hout.layout] at hnew
  rcases Cache.normalize_read_cases h.normalized h.cache with hread | hread
  · rw [hread, declarationText?_nil] at hnew
    cases hnew
  · have hbare : ((es.map Entity.reread).map (Cache.stored g.settings.target)).map Entity.bare =
        (es.map (Cache.stored g.settings.target)).map Entity.bare := by
      simp only [List.map_map]
      exact List.map_congr_left fun e _ => Cache.bare_stored_reread g.settings.target e
    rw [hread, declarationText?_of_bare hbare] at hnew
    exact hnew

theorem outage_cases (h : g.Declared env s es text) (hout : g.Outage env env') :
    (g.run env' s).store.read? g.declarationPath = some text ∨
      ∃ new, g.declarationText? env (es.map (Cache.stored g.settings.target)) = some new ∧
        (g.run env' s).store.read? g.declarationPath = some new := by
  rcases read?_declarations_run h.declarations with hread | ⟨new, hnew, hread⟩
  · exact .inl hread
  · exact .inr ⟨new, h.declares_stored hout hnew, hread⟩

/-- Declarations stay as they are if all that they use was stored. -/
theorem outage_of_bare (h : g.Declared env s es text) (hout : g.Outage env env')
    (hbare : (es.map (Cache.stored g.settings.target)).map Entity.bare = es.map Entity.bare) :
    (g.run env' s).store.read? g.declarationPath = some text := by
  rcases h.outage_cases hout with hread | ⟨new, hnew, hread⟩
  · exact hread
  · rw [declarationText?_of_bare hbare, h.declares] at hnew
    rw [hread, hnew]

theorem entities_of_readsBack (h : g.Declared env s es text) (hout : g.Outage env env')
    (hr : (Cache.value g.settings.target es).ReadsBack depthLimit) :
    g.entities env' s = es.map (Cache.stored g.settings.target) := by
  rw [hout.entities, Cache.normalize_read h.normalized hr h.cache]

/-- Declarations become those of what was stored if the cache reads back. -/
theorem outage_of_readsBack (h : g.Declared env s es text) (hout : g.Outage env env')
    (hr : (Cache.value g.settings.target es).ReadsBack depthLimit)
    (hw : (g.run env' s).writeFailed = false) :
    (g.run env' s).store.read? g.declarationPath =
      (g.declarationText? env (es.map (Cache.stored g.settings.target))).or (some text) := by
  obtain ⟨s', updated, written, hwrite, htext, _⟩ := exists_writes_of_run hw
  have hkeep := read?_declarations_cacheWrite hwrite h.declarations
  have hread := read?_writeText htext
  rw [h.entities_of_readsBack hout hr, declarationText?_congr hout.dict hout.layout, hkeep] at hread
  exact hread

end Declared

/-- **Declarations in an outage.**  When a run wrote declarations and the next one gets no answer for
the schema, the declarations of the cross-platform target stay as they are.  Those of another target
stay as they are unless an entity has columns, or a method a summary or a parameter that is declared;
at worst they become those of the short forms, and they do when the cache reads back and no write
fails. -/
theorem declarations_after_outage (g : Generator) (s : Store) (env env' : Environment)
    (report : Report) (p : Published) (decoded : List Entity)
    (hfirst : (g.run env s).result = .ok (report, p)) (hwritten : report.declarationWritten = true)
    (hanswer : (env.answer g.settings.schemaUrl).bind schemaOfAnswer? = some decoded)
    (hout : env'.answer g.settings.schemaUrl = none)
    (hdict : env'.answer g.settings.dictUrl = env.answer g.settings.dictUrl)
    (hlayout : env'.layout = env.layout) :
    let es := normalize g.settings.target decoded
    let second := g.run env' (g.run env s).store
    let before := (g.run env s).store.read? g.declarationPath
    let behind := second.store.read? g.declarationPath
    (g.settings.target.isCrossPlatform = true → behind = before) ∧
      (g.settings.target.isCrossPlatform = false →
        ((∀ e ∈ es, e.allColumns = [] ∧ ∀ m ∈ e.methods, m.summary.filter hasText = none ∧
            (m.parameters.filter fun q => isLawful q.name.toList) = []) → behind = before) ∧
        (behind = before ∨
          ∃ text, g.declarationText? env (es.map Entity.short) = some text ∧ behind = some text) ∧
        ((Cache.value g.settings.target es).ReadsBack depthLimit → second.writeFailed = false →
          behind = (g.declarationText? env (es.map Entity.short)).or before)) := by
  intro es second before behind
  obtain ⟨text, h⟩ := exists_declared_of_written hfirst hwritten hanswer
  have ho : g.Outage env env' := ⟨hout, hdict, hlayout⟩
  have hbefore : before = some text := h.declarations
  rw [hbefore]
  constructor
  · intro ht
    refine h.outage_of_bare ho ?_
    rw [Cache.stored_eq_id ht, List.map_id]
  · intro ht
    have hstored := Cache.stored_eq_short ht
    refine ⟨?_, ?_, ?_⟩
    · intro hes
      refine h.outage_of_bare ho ?_
      rw [hstored, List.map_map]
      exact List.map_congr_left fun e he => Entity.bare_short (hes e he).1 (hes e he).2
    · rw [← hstored]
      exact h.outage_cases ho
    · intro hback hsecond
      rw [← hstored]
      exact h.outage_of_readsBack ho hback hsecond

/-- An outage behind the declarations of a column. -/
theorem declarations_after_outage_column :
    let s := (standard.run (standard.plainly (some columnAnswer)) {}).store
    let behind := (standard.run (standard.plainly none) s).store.read? standard.declarationPath
    behind = s.read? standard.declarationPath ∨
      ∃ text, standard.declarationText? (standard.plainly (some columnAnswer))
        ((normalize .admin [columnEntity]).map Entity.short) = some text ∧ behind = some text := by
  obtain ⟨report, p, hfirst, hwritten⟩ := exists_report_columnAnswer
  exact ((declarations_after_outage standard {} (standard.plainly (some columnAnswer))
    (standard.plainly none) report p [columnEntity] hfirst hwritten rfl rfl rfl rfl).2 rfl).2.1

/-! ## An outage that changes declarations -/

theorem exists_synthesized {es : List Entity} {text : String}
    (h : g.declarationText? env es = some text) :
    ∃ out laid, synthesize g.settings.target g.types es
        (RouteTree.build g.settings.namespaceId es)
        ((env.answer g.settings.dictUrl).bind dictionaryOfAnswer?) = .ok out ∧
      env.layout out.text.toList = .ok laid ∧ text = String.ofList laid := by
  unfold declarationText? at h
  split at h
  next => cases h
  next out hout =>
    split at h
    next => cases h
    next =>
      split at h
      next laid hlaid =>
        cases h
        exact ⟨out, laid, hout, hlaid, rfl⟩
      next => cases h

/-- Without its column the entity has other declarations. -/
theorem declarationText?_columnEntity_ne {text new : String}
    (htext : standard.declarationText? (standard.plainly (some columnAnswer))
      [columnEntity.fillSearch] = some text)
    (hnew : standard.declarationText? (standard.plainly none)
      ([columnEntity.fillSearch].map withoutColumns) = some new) : text ≠ new := by
  obtain ⟨out, laid, hout, hlaid, rfl⟩ := exists_synthesized htext
  obtain ⟨out', laid', hout', hlaid', rfl⟩ := exists_synthesized hnew
  cases hlaid
  cases hlaid'
  obtain ⟨plain, hplain, hall⟩ := exists_synthesizePlain rfl hout
  obtain ⟨plain', hplain', hall'⟩ := exists_synthesizePlain rfl hout'
  have hne : (entityTexts .admin {} (declaredEntities [] [columnEntity.fillSearch]).1).toOption ≠
      (entityTexts .admin {}
        (declaredEntities [] ([columnEntity.fillSearch].map withoutColumns)).1).toOption := by
    decide
  intro heq
  rw [String.ofList_toList, String.ofList_toList, hall, hall'] at heq
  have hplains := (String.append_left_inj _).1 heq
  have hplains := (String.append_right_inj _).1 hplains
  have htexts := entityTexts_eq_of_synthesizePlain hplain hplain' hplains
  exact hne (congrArg Except.toOption htexts)

/-- An outage changes the declarations of an entity with a column. -/
theorem outage_changes_declarations :
    ¬ ∀ (g : Generator) (s : Store) (env env' : Environment) (report : Report) (p : Published)
        (decoded : List Entity), (∀ text, ∃ out, env.layout text = .ok out) →
      (g.run env s).result = .ok (report, p) → report.declarationWritten = true →
      (env.answer g.settings.schemaUrl).bind schemaOfAnswer? = some decoded →
      normalize g.settings.target decoded ≠ [] → env'.answer g.settings.schemaUrl = none →
      env'.answer g.settings.dictUrl = env.answer g.settings.dictUrl → env'.layout = env.layout →
      (g.run env' (g.run env s).store).store.read? g.declarationPath =
        (g.run env s).store.read? g.declarationPath := by
  intro h
  let g := standard
  let env := standard.plainly (some columnAnswer)
  let env' := standard.plainly none
  let es := [columnEntity.fillSearch]
  obtain ⟨report, p, hfirst, hwritten⟩ := exists_report_columnAnswer
  have hne : normalize .admin [columnEntity] ≠ [] := List.cons_ne_nil _ _
  have hsame := h g {} env env' report p [columnEntity] (fun text => ⟨text, rfl⟩) hfirst hwritten
    schemaOfAnswer?_columnAnswer hne rfl rfl rfl
  obtain ⟨text, hd⟩ := exists_declared_of_written hfirst hwritten schemaOfAnswer?_columnAnswer
  have ho : g.Outage env env' := ⟨rfl, rfl, rfl⟩
  have hback : (Cache.value .admin es).ReadsBack depthLimit := by
    have hback : ∀ e ∈ [columnEntity], e.WritesBack 118 :=
      writesBack_of_schemaOfAnswer? readsBack_columnAnswer schemaOfAnswer?_columnAnswer
    exact Cache.readsBack_value_normalize .admin hback
  -- Reading the cache in the kernel takes minutes, so what the second run does to the files is
  -- put together from the lemmas.
  have hshort : g.entities env' (g.run env {}).store = es.map Entity.short :=
    hd.entities_of_readsBack ho hback
  have hcache : (g.run env {}).store.read? g.cachePath =
      some (Cache.content .admin (es.map Entity.short)) :=
    hd.cache.trans (congrArg some (Cache.content_stored .admin es).symm)
  have hwrite : Cache.write (g.run env {}).store g.cachePath g.settings.target
      (g.entities env' (g.run env {}).store) = ((g.run env {}).store, .ok false) := by
    rw [hshort]
    exact Cache.write_of_read? hcache
  obtain ⟨new, hnew⟩ : ∃ new, g.declarationText? env' (es.map Entity.short) = some new :=
    Option.isSome_iff_exists.1 (by decide +kernel)
  have hdeep : ((g.run env {}).store.writeDeep g.declarationPath
      ((g.declarationText? env' (es.map Entity.short)).getD "")).2.isOk = true := by
    decide +kernel
  rw [hnew, Option.getD_some] at hdeep
  obtain ⟨s', b, htext⟩ := Store.exists_writeIfChanged_of_writeDeep hdeep
  have hbehind : (g.run env' (g.run env {}).store).store.read? g.declarationPath = some new := by
    rw [store_of_cacheWrite hwrite, hshort]
    simp only [writeText, hnew, htext]
    exact Store.read?_writeIfChanged htext
  rw [hbehind, hd.declarations] at hsame
  exact declarationText?_columnEntity_ne hd.declares hnew (Option.some.inj hsame).symm

end Generator

end ClientBuild
