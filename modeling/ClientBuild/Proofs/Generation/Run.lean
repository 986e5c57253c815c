import ClientBuild.Generation.Run
import ClientBuild.Proofs.Schema.Cache

/-!
# What a run does to the files

A run works on a list of entities (`Generator.entities`), writes its cache, and then the
declarations that it makes of them, if it makes any (`Generator.declarationText?`).  When no write
fails these two writes are all that happens (`Generator.exists_writes_of_run`).
-/

namespace ClientBuild

open Declaration

/-- Did the run fail because a file could not be written? -/
def RunEnd.writeFailed (r : RunEnd) : Bool :=
  match r.result with
  | .error (.io _ _) => true
  | _ => false

theorem RunEnd.ne_io {r : RunEnd} (h : r.writeFailed = false) (path reason : String) :
    r.result ≠ .error (.io path reason) := by
  intro hr
  rw [writeFailed, hr] at h
  cases h

namespace Generator

variable (g : Generator) (env : Environment) (s : Store)

/-- The entities that a run works on, and where they come from. -/
def fetched : List Entity × Origin :=
  fetchSchema g.settings.target (env.answer g.settings.schemaUrl) (Cache.read s g.cachePath)

/-- The entities that a run works on. -/
def entities : List Entity := (g.fetched env s).1

/-- The text of the declarations that a run makes of its entities, laid out.  There is none without
entities, nor if they cannot be declared or the text cannot be laid out. -/
def declarationText? (es : List Entity) : Option String :=
  match synthesize g.settings.target g.types es (g.published es).tree
    ((env.answer g.settings.dictUrl).bind dictionaryOfAnswer?) with
  | .error _ => none
  | .ok out =>
    if es.isEmpty then none
    else
      match env.layout out.text.toList with
      | .ok text => some (String.ofList text)
      | .error _ => none

/-- Write the declarations of entities, if there are any. -/
def writeText (es : List Entity) : Store × Except Failure Bool :=
  match g.declarationText? env es with
  | none => (s, .ok false)
  | some text => s.writeIfChanged g.declarationPath text

/-! ## The part of a run behind the cache -/

variable {g env s} {es : List Entity} {origin : Origin} {updated : Bool}

/-- Behind the cache a run writes its declarations.  It fails if they cannot be written, or if there
are none because the entities cannot be declared. -/
theorem finishRun_cases {r : RunEnd} (h : g.finishRun env s (g.published es) origin updated = r) :
    (∃ e, g.writeText env s es = (r.store, .error e) ∧ r.result = .error e) ∨
      (∃ e, g.writeText env s es = (r.store, .ok false) ∧ r.result = .error e) ∨
      ∃ report, g.writeText env s es = (r.store, .ok report.declarationWritten) ∧
        r.result = .ok (report, g.published es) ∧ report.origin = origin ∧
        report.entityCount = es.length ∧ report.cacheUpdated = updated := by
  subst h
  have hes : (g.published es).entities = es := rfl
  simp only [finishRun, writeText, declarationText?, hes]
  cases synthesize g.settings.target g.types es (g.published es).tree
      ((env.answer g.settings.dictUrl).bind dictionaryOfAnswer?) with
  | error e => exact .inr (.inl ⟨e, rfl, rfl⟩)
  | ok out =>
    simp only [writeDeclarations]
    cases hempty : es.isEmpty with
    | true => exact .inr (.inr ⟨_, rfl, rfl, rfl, rfl, rfl⟩)
    | false =>
      simp only [Bool.false_eq_true, if_false]
      cases env.layout out.text.toList with
      | error e => exact .inr (.inr ⟨_, rfl, rfl, rfl, rfl, rfl⟩)
      | ok text =>
        cases hwrite : s.writeIfChanged g.declarationPath (String.ofList text) with
        | mk s' written =>
          simp only [hwrite]
          cases written with
          | error e => exact .inl ⟨e, rfl, rfl⟩
          | ok b => exact .inr (.inr ⟨_, rfl, rfl, rfl, rfl, rfl⟩)

theorem writeText_nil : g.writeText env s [] = (s, .ok false) := by
  simp only [writeText, declarationText?]
  cases synthesize g.settings.target g.types [] (g.published []).tree
      ((env.answer g.settings.dictUrl).bind dictionaryOfAnswer?) with
  | error e => rfl
  | ok out => rfl

/-- Declarations depend on what the backend answers to the question for the dictionary, and on the
layout. -/
theorem declarationText?_congr {env' : Environment}
    (hdict : env'.answer g.settings.dictUrl = env.answer g.settings.dictUrl)
    (hlayout : env'.layout = env.layout) (es : List Entity) :
    g.declarationText? env' es = g.declarationText? env es := by
  rw [declarationText?, declarationText?, hdict, hlayout]

theorem writeText_error {s' : Store} {e : Failure} (h : g.writeText env s es = (s', .error e)) :
    ∃ path reason, e = .io path reason := by
  unfold writeText at h
  split at h
  next => cases h
  next => exact ⟨_, _, Store.writeIfChanged_error h⟩

/-! ## A whole run -/

/-- A run whose cache cannot be written fails; any other goes on behind the cache. -/
theorem run_cases {r : RunEnd} (h : g.run env s = r) :
    (∃ s' e, Cache.write s g.cachePath g.settings.target (g.entities env s) = (s', .error e) ∧
      r.store = s' ∧ r.result = .error e) ∨
      ∃ s' updated,
        Cache.write s g.cachePath g.settings.target (g.entities env s) = (s', .ok updated) ∧
        g.finishRun env s' (g.published (g.entities env s)) (g.fetched env s).2 updated = r := by
  subst h
  cases hwrite : Cache.write s g.cachePath g.settings.target (g.entities env s) with
  | mk s' updated =>
    have hfetch : fetchSchema g.settings.target (env.answer g.settings.schemaUrl)
        (Cache.read s g.cachePath) = (g.entities env s, (g.fetched env s).2) := rfl
    simp only [run, hfetch, hwrite]
    cases updated with
    | error e => exact .inl ⟨s', e, rfl, rfl, rfl⟩
    | ok updated => exact .inr ⟨s', updated, rfl, rfl⟩

/-- The files behind a run whose cache could be written. -/
theorem store_of_cacheWrite {s' : Store} {updated : Bool}
    (h : Cache.write s g.cachePath g.settings.target (g.entities env s) = (s', .ok updated)) :
    (g.run env s).store = (g.writeText env s' (g.entities env s)).1 := by
  rcases run_cases rfl with ⟨_, _, hcache, _, _⟩ | ⟨_, _, hcache, hfinish⟩
  · cases h.symm.trans hcache
  · cases h.symm.trans hcache
    rcases finishRun_cases hfinish with ⟨_, htext, _⟩ | ⟨_, htext, _⟩ | ⟨_, htext, _, _, _, _⟩
    · rw [htext]
    · rw [htext]
    · rw [htext]

/-- **A run writes its cache and its declarations.** -/
theorem exists_writes_of_run (h : (g.run env s).writeFailed = false) :
    ∃ s' updated written,
      Cache.write s g.cachePath g.settings.target (g.entities env s) = (s', .ok updated) ∧
      g.writeText env s' (g.entities env s) = ((g.run env s).store, .ok written) ∧
      ∀ report p, (g.run env s).result = .ok (report, p) →
        report.origin = (g.fetched env s).2 ∧ p = g.published (g.entities env s) ∧
        report.entityCount = (g.entities env s).length ∧ report.cacheUpdated = updated ∧
        report.declarationWritten = written := by
  have hio : ∀ {s' : Store} {e : Failure},
      Cache.write s g.cachePath g.settings.target (g.entities env s) = (s', .error e) →
      (g.run env s).result ≠ .error e := by
    intro s' e hw
    unfold Cache.write at hw
    split at hw
    next => cases hw
    next => exact Store.writeIfChanged_error hw ▸ RunEnd.ne_io h _ _
  rcases run_cases rfl with ⟨s', e, hcache, hstore, hresult⟩ | ⟨s', updated, hcache, hfinish⟩
  · exact absurd hresult (hio hcache)
  · rcases finishRun_cases hfinish with ⟨e, htext, hresult⟩ | ⟨e, htext, hresult⟩ |
      ⟨report, htext, hresult, horigin, hcount, hupdated⟩
    · obtain ⟨path, reason, rfl⟩ := writeText_error htext
      exact absurd hresult (RunEnd.ne_io h path reason)
    · refine ⟨s', updated, false, hcache, htext, fun report p hr => ?_⟩
      rw [hresult] at hr
      cases hr
    · refine ⟨s', updated, report.declarationWritten, hcache, htext, fun report' p hr => ?_⟩
      rw [hresult] at hr
      cases hr
      exact ⟨horigin, rfl, hcount, hupdated, rfl⟩

/-- A run that finds its cache and its declarations written changes no file and says so. -/
theorem run_of_written
    (hcache : Cache.write s g.cachePath g.settings.target (g.entities env s) = (s, .ok false))
    (htext : g.writeText env s (g.entities env s) = (s, .ok false)) :
    (g.run env s).store = s ∧ ∀ report p, (g.run env s).result = .ok (report, p) →
      report.cacheUpdated = false ∧ report.declarationWritten = false := by
  rcases run_cases rfl with ⟨_, _, hwrite, _, _⟩ | ⟨_, _, hwrite, hfinish⟩
  · rw [hcache] at hwrite
    cases hwrite
  · rw [hcache] at hwrite
    cases hwrite
    rcases finishRun_cases hfinish with ⟨e, h, _⟩ | ⟨e, h, hresult⟩ |
      ⟨report, h, hresult, _, _, hupdated⟩
    · rw [htext] at h
      cases (Prod.mk.inj h).2
    · rw [htext] at h
      refine ⟨(congrArg Prod.fst h).symm, fun report p hr => ?_⟩
      rw [hresult] at hr
      cases hr
    · rw [htext] at h
      obtain ⟨hstore, hwritten⟩ := Prod.mk.inj h
      refine ⟨hstore.symm, fun report' p hr => ?_⟩
      rw [hresult] at hr
      cases hr
      exact ⟨hupdated, (Except.ok.inj hwritten).symm⟩

end Generator

end ClientBuild
