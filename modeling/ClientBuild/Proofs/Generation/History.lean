import ClientBuild.Proofs.Generation.Run

/-!
# Histories of runs

Runs follow each other over the same files, each with answers and a layout of its own.  What holds
between them is `Generator.CacheHolds`: there is no cache as long as no run had entities, and from
then on the cache is that of the last run that had any, whatever the runs answered.  A run that gets
no usable answer therefore works on the stored forms of that last list (`cache_after_runs`), and a
run that is repeated finds every file as it would write it (`run_again`).
-/

namespace ClientBuild

open Json

/-- The last list that is not empty. -/
def lastNonempty (lists : List (List Entity)) : Option (List Entity) :=
  (lists.filter fun es => !es.isEmpty).getLast?

theorem lastNonempty_cons (es : List Entity) (lists : List (List Entity)) :
    lastNonempty (es :: lists) = (lastNonempty lists).or (if es.isEmpty then none else some es) := by
  cases es with
  | nil => simp [lastNonempty]
  | cons e es => simp [lastNonempty, List.getLast?_cons, Option.or_some]

namespace Generator

variable (g : Generator)

/-- The files behind a list of runs. -/
def after (s : Store) (envs : List Environment) : Store :=
  envs.foldl (fun s env => (g.run env s).store) s

/-- The entities that each of a list of runs works on. -/
def worked (s : Store) : List Environment → List (List Entity)
  | [] => []
  | env :: envs => g.entities env s :: worked (g.run env s).store envs

/-- No run of a list fails to write a file. -/
def WritesSucceed (s : Store) : List Environment → Prop
  | [] => True
  | env :: envs => (g.run env s).writeFailed = false ∧ WritesSucceed (g.run env s).store envs

/-- Every answer to the question for the schema reads back. -/
def AnswersReadBack (envs : List Environment) : Prop :=
  ∀ env ∈ envs, ∀ v, env.answer g.settings.schemaUrl = some v → v.ReadsBack depthLimit

variable {g}

theorem after_concat (s : Store) (envs : List Environment) (env : Environment) :
    g.after s (envs ++ [env]) = (g.run env (g.after s envs)).store := by
  rw [after, List.foldl_append]
  rfl

theorem writesSucceed_append {envs rest : List Environment} {s : Store} :
    g.WritesSucceed s (envs ++ rest) ↔
      g.WritesSucceed s envs ∧ g.WritesSucceed (g.after s envs) rest := by
  induction envs generalizing s with
  | nil => exact (and_iff_right trivial).symm
  | cons env envs ih =>
    simp only [List.cons_append, WritesSucceed, ih, and_assoc]
    rfl

/-! ## The paths of the two files -/

theorem isName_cache : FilePath.IsName Cache.fileName := FilePath.isName_of_all rfl rfl

theorem isName_declarations (t : Target) : FilePath.IsName t.declarationFile := by
  cases t with
  | admin => exact FilePath.isName_of_all rfl rfl
  | app => exact FilePath.isName_of_all rfl rfl
  | uniappX => exact FilePath.isName_of_all rfl rfl

theorem declarationFile_ne_cache (t : Target) : t.declarationFile ≠ Cache.fileName := by
  cases t with
  | admin => decide
  | app => decide
  | uniappX => decide

theorem cachePath_ne_empty (g : Generator) : g.cachePath ≠ "" := by
  obtain ⟨cs, hcs⟩ := FilePath.components_join g.settings.distDir isName_cache
  intro h
  rw [show FilePath.join g.settings.distDir Cache.fileName = "" from h] at hcs
  have hnil : FilePath.components "" = [] := by decide
  rw [hnil] at hcs
  exact List.cons_ne_nil _ _ (List.append_eq_nil_iff.1 hcs.symm).2

/-- Writing the declarations leaves the cache as it is. -/
theorem read?_cache_writeText {env : Environment} {s s' : Store} {es : List Entity} {text : String}
    {r : Except Failure Bool} (h : g.writeText env s es = (s', r))
    (hs : s.read? g.cachePath = some text) : s'.read? g.cachePath = some text := by
  unfold writeText at h
  split at h
  next =>
    cases h
    exact hs
  next =>
    exact Store.read?_writeIfChanged_of_ne (isName_declarations _) isName_cache
      (declarationFile_ne_cache _) h hs

/-! ## What holds between runs -/

/-- The cache is that of the list, and there is none as long as there is no list. -/
def CacheHolds (g : Generator) (s : Store) : Option (List Entity) → Prop
  | none => s.exists? g.cachePath = false
  | some es => s.read? g.cachePath = some (Cache.content g.settings.target es) ∧
      Cache.Kept g.settings.target es

variable {s : Store} {env : Environment} {last : Option (List Entity)}

theorem CacheHolds.kept (h : g.CacheHolds s last) : Cache.Kept g.settings.target (last.getD []) := by
  cases last with
  | none => exact Cache.kept_nil _
  | some es => exact h.2

theorem CacheHolds.normalize_read (h : g.CacheHolds s last) :
    normalize g.settings.target (Cache.read s g.cachePath) =
      (last.getD []).map (Cache.stored g.settings.target) := by
  cases last with
  | none =>
    rw [Cache.read_of_read?_eq_none (Store.read?_eq_none_of_exists? h g.cachePath_ne_empty)]
    rfl
  | some es => exact Cache.normalize_read h.2.normalized h.2.readsBack h.1

/-- Without a usable answer a run works on what was stored of the last list. -/
theorem CacheHolds.fetched (h : g.CacheHolds s last)
    (hanswer : (env.answer g.settings.schemaUrl).bind schemaOfAnswer? = none) :
    g.fetched env s = ((last.getD []).map (Cache.stored g.settings.target), .cache) := by
  simp only [Generator.fetched, fetchSchema, hanswer, h.normalize_read]

theorem fetched_of_some {es : List Entity}
    (hanswer : (env.answer g.settings.schemaUrl).bind schemaOfAnswer? = some es) :
    g.fetched env s = (normalize g.settings.target es, .remote) := by
  simp only [Generator.fetched, fetchSchema, hanswer]

theorem CacheHolds.kept_entities (h : g.CacheHolds s last)
    (hr : ∀ v, env.answer g.settings.schemaUrl = some v → v.ReadsBack depthLimit) :
    Cache.Kept g.settings.target (g.entities env s) := by
  cases hanswer : (env.answer g.settings.schemaUrl).bind schemaOfAnswer? with
  | none =>
    rw [entities, h.fetched hanswer]
    exact h.kept.stored
  | some es =>
    obtain ⟨v, hv, hes⟩ := Option.bind_eq_some_iff.1 hanswer
    rw [entities, fetched_of_some hanswer]
    refine ⟨normalized_normalize (wellFormed_of_schemaOfAnswer? hes), ?_⟩
    have hback : ∀ e ∈ es, e.WritesBack 118 := writesBack_of_schemaOfAnswer? (hr v hv) hes
    exact Cache.readsBack_value_normalize _ hback

/-- What one run makes of the cache. -/
theorem CacheHolds.run (h : g.CacheHolds s last)
    (hr : ∀ v, env.answer g.settings.schemaUrl = some v → v.ReadsBack depthLimit)
    (hw : (g.run env s).writeFailed = false) :
    g.CacheHolds (g.run env s).store
      ((if (g.entities env s).isEmpty then none else some (g.entities env s)).or last) := by
  obtain ⟨s', updated, written, hcache, htext, _⟩ := exists_writes_of_run hw
  have hkept := h.kept_entities hr
  unfold Cache.write at hcache
  split at hcache
  next hempty =>
    cases hcache
    rw [List.isEmpty_iff.1 hempty, writeText_nil] at htext
    have hstore : s = (g.run env s).store := congrArg Prod.fst htext
    rw [if_pos hempty, Option.none_or, ← hstore]
    exact h
  next hempty =>
    rw [if_neg hempty, Option.some_or]
    exact ⟨read?_cache_writeText htext (Store.read?_writeIfChanged hcache), hkept⟩

theorem AnswersReadBack.cons {envs : List Environment} (h : g.AnswersReadBack (env :: envs)) :
    (∀ v, env.answer g.settings.schemaUrl = some v → v.ReadsBack depthLimit) ∧
      g.AnswersReadBack envs :=
  ⟨h env List.mem_cons_self, fun e he => h e (List.mem_cons_of_mem env he)⟩

/-- What a history of runs makes of the cache. -/
theorem CacheHolds.after {envs : List Environment} (h : g.CacheHolds s last)
    (hr : g.AnswersReadBack envs) (hw : g.WritesSucceed s envs) :
    g.CacheHolds (g.after s envs) ((lastNonempty (g.worked s envs)).or last) := by
  induction envs generalizing s last with
  | nil => exact h
  | cons env envs ih =>
    have hrun := ih (h.run hr.cons.1 hw.1) hr.cons.2 hw.2
    rw [worked, lastNonempty_cons, Option.or_assoc]
    exact hrun

/-- **The cache of a history of runs.**  There is no cache while no run had entities; afterwards it
is that of the last list that was not empty.  A run without a usable answer works on as many entities
as there are in that list, with the same routes, names, methods and search groups, and says that they
come from the cache. -/
theorem cache_after_runs (g : Generator) (s : Store) (envs : List Environment)
    (hs : s.exists? g.cachePath = false) (hr : g.AnswersReadBack envs)
    (hw : g.WritesSucceed s envs) :
    (match lastNonempty (g.worked s envs) with
      | none => (g.after s envs).exists? g.cachePath = false
      | some es =>
        (g.after s envs).read? g.cachePath = some (Cache.content g.settings.target es)) ∧
    ∀ env, (env.answer g.settings.schemaUrl).bind schemaOfAnswer? = none →
      let es := g.entities env (g.after s envs)
      let last := (lastNonempty (g.worked s envs)).getD []
      es.length = last.length ∧ es.map Entity.short = last.map Entity.short ∧
      ∀ report p, (g.run env (g.after s envs)).result = .ok (report, p) →
        report.origin = .cache ∧ report.entityCount = last.length ∧ p.entities = es := by
  have hold : g.CacheHolds (g.after s envs) (lastNonempty (g.worked s envs)) := by
    have hstart : g.CacheHolds s none := hs
    have hafter := hstart.after hr hw
    rwa [Option.or_none] at hafter
  constructor
  · cases hlast : lastNonempty (g.worked s envs) with
    | none =>
      rw [hlast] at hold
      exact hold
    | some es =>
      rw [hlast] at hold
      exact hold.1
  · intro env hanswer es last
    have hes : es = last.map (Cache.stored g.settings.target) :=
      congrArg Prod.fst (hold.fetched hanswer)
    have hlength : es.length = last.length := by rw [hes, List.length_map]
    refine ⟨hlength, ?_, ?_⟩
    · rw [hes, List.map_map]
      exact List.map_congr_left fun e _ => Cache.short_stored g.settings.target e
    · intro report p hresult
      have hwrites : (g.run env (g.after s envs)).writeFailed = false := by
        rw [RunEnd.writeFailed, hresult]
      obtain ⟨_, _, _, _, _, hreport⟩ := exists_writes_of_run hwrites
      obtain ⟨horigin, hp, hcount, _, _⟩ := hreport report p hresult
      rw [hold.fetched hanswer] at horigin
      refine ⟨horigin, hcount.trans hlength, ?_⟩
      rw [hp]
      rfl

/-- The generator of the default settings, without a mapping of types. -/
def standard : Generator := ⟨{}, {}⟩

/-- An answer with one entity. -/
def userAnswer : Json :=
  .object
    [("code", .number (.integer 1000)),
     ("data", .object [("base", .array
       [.object
         [("prefix", .string "/admin/user"), ("name", .string "User"),
          ("api", .array [.object [("path", .string "/list"), ("method", .string "post")]])]])])]

theorem readsBack_userAnswer : userAnswer.ReadsBack depthLimit := by
  have hcode : (Number.integer 1000).ReadsBack := readsBack_integer 126 ⟨by decide, by decide⟩
  simpa [userAnswer, depthLimit, ReadsBack, ItemsReadBack, MembersReadBack] using hcode

theorem answersReadBack_of_forall {envs : List Environment}
    (h : ∀ env ∈ envs, env.answer g.settings.schemaUrl = some userAnswer ∨
      env.answer g.settings.schemaUrl = none) : g.AnswersReadBack envs := by
  intro env henv v hv
  rcases h env henv with h | h
  · rw [h] at hv
    cases hv
    exact readsBack_userAnswer
  · rw [h] at hv
    cases hv

/-- What a run finds when the backend answers only the question for the schema, if that, and no
text can be laid out. -/
def answering (g : Generator) (answer : Option Json) : Environment where
  answer := fun url => if url = g.settings.schemaUrl then answer else none
  layout := fun _ => .error (.format "no layout")

theorem exists?_standard : ({} : Store).exists? standard.cachePath = false := by decide

theorem writeFailed_user :
    (standard.run (standard.answering (some userAnswer)) {}).writeFailed = false := by
  decide +kernel

/-- An outage behind a run that had an entity. -/
theorem cache_after_runs_user :
    let envs := [standard.answering (some userAnswer)]
    (standard.entities (standard.answering none) (standard.after {} envs)).map Entity.short =
      ((lastNonempty (standard.worked {} envs)).getD []).map Entity.short := by
  intro envs
  have hr : standard.AnswersReadBack envs :=
    answersReadBack_of_forall (List.forall_mem_singleton.2 (.inl rfl))
  have hw : standard.WritesSucceed {} envs := ⟨writeFailed_user, trivial⟩
  exact ((cache_after_runs standard {} envs exists?_standard hr hw).2
    (standard.answering none) rfl).2.1

/-! ## Repeated runs -/

/-- Behind a run that had entities, or found no cache to change, the same answer gives the same
entities. -/
theorem CacheHolds.entities_again {env' : Environment} {s' : Store}
    (hschema : env'.answer g.settings.schemaUrl = env.answer g.settings.schemaUrl)
    (h : g.CacheHolds s last)
    (h' : g.CacheHolds s'
      ((if (g.entities env s).isEmpty then none else some (g.entities env s)).or last)) :
    g.entities env' s' = g.entities env s := by
  cases hanswer : (env.answer g.settings.schemaUrl).bind schemaOfAnswer? with
  | some es =>
    rw [entities, entities, fetched_of_some hanswer, fetched_of_some (hschema ▸ hanswer)]
  | none =>
    have hstored : g.entities env s = (last.getD []).map (Cache.stored g.settings.target) :=
      congrArg Prod.fst (h.fetched hanswer)
    rw [entities, h'.fetched (hschema ▸ hanswer)]
    split
    next => rw [Option.none_or, hstored]
    next =>
      rw [Option.some_or, Option.getD_some, hstored, List.map_map]
      exact List.map_congr_left fun e _ => Cache.stored_stored g.settings.target e

theorem writeText_of_written {env' : Environment} {s' : Store} {es : List Entity} {b : Bool}
    (hdict : env'.answer g.settings.dictUrl = env.answer g.settings.dictUrl)
    (hlayout : env'.layout = env.layout) (h : g.writeText env s es = (s', .ok b)) :
    g.writeText env' s' es = (s', .ok false) := by
  unfold writeText at h ⊢
  rw [declarationText?_congr hdict hlayout]
  split at h
  next => rfl
  next => exact Store.writeIfChanged_of_read? (Store.read?_writeIfChanged h)

/-- **Repeating a run changes nothing.**  Behind any history, a run with the answers and the layout
of the last one leaves every file as it is, and if it completes it says so. -/
theorem run_again (g : Generator) (s : Store) (envs : List Environment) (env env' : Environment)
    (hs : s.exists? g.cachePath = false) (hr : g.AnswersReadBack (envs ++ [env]))
    (hw : g.WritesSucceed s (envs ++ [env]))
    (hschema : env'.answer g.settings.schemaUrl = env.answer g.settings.schemaUrl)
    (hdict : env'.answer g.settings.dictUrl = env.answer g.settings.dictUrl)
    (hlayout : env'.layout = env.layout) :
    let s' := g.after s (envs ++ [env])
    (g.run env' s').store = s' ∧
      ∀ report p, (g.run env' s').result = .ok (report, p) →
        report.cacheUpdated = false ∧ report.declarationWritten = false := by
  intro s'
  have hrlast : ∀ v, env.answer g.settings.schemaUrl = some v → v.ReadsBack depthLimit :=
    hr env (List.mem_append_right envs List.mem_cons_self)
  have hrbefore : g.AnswersReadBack envs := fun e he => hr e (List.mem_append_left [env] he)
  obtain ⟨hwbefore, hwlast, _⟩ := writesSucceed_append.1 hw
  have hstart : g.CacheHolds s none := hs
  have hbefore := hstart.after hrbefore hwbefore
  have hafter := hbefore.run hrlast hwlast
  have hs' : s' = (g.run env (g.after s envs)).store := after_concat s envs env
  obtain ⟨t, updated, written, hcache, htext, _⟩ := exists_writes_of_run hwlast
  rw [← hs'] at hafter htext
  have hentities : g.entities env' s' = g.entities env (g.after s envs) :=
    hbefore.entities_again hschema hafter
  refine run_of_written ?_ ?_
  · rw [hentities, Cache.write]
    split
    next => rfl
    next hne =>
      rw [if_neg hne, Option.some_or] at hafter
      exact Store.writeIfChanged_of_read? hafter.1
  · rw [hentities]
    exact writeText_of_written hdict hlayout htext

/-- A second outage behind an outage. -/
theorem run_again_user :
    let outage := standard.answering none
    let s := standard.after {} [standard.answering (some userAnswer), outage]
    (standard.run outage s).store = s := by
  intro outage s
  let envs := [standard.answering (some userAnswer)]
  have hr : standard.AnswersReadBack (envs ++ [outage]) := by
    refine answersReadBack_of_forall (List.forall_mem_cons.2 ⟨.inl rfl, ?_⟩)
    exact List.forall_mem_singleton.2 (.inr rfl)
  have hw : standard.WritesSucceed {} (envs ++ [outage]) :=
    ⟨writeFailed_user, by decide +kernel, trivial⟩
  exact (run_again standard {} envs outage outage exists?_standard hr hw rfl rfl rfl).1

end Generator

end ClientBuild
