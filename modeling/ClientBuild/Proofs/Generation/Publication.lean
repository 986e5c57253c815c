import ClientBuild.Proofs.Generation.Attempt
import ClientBuild.Proofs.Generation.History

/-!
# What runs publish

A run ends in one of four ways: the cache cannot be saved, nothing can be declared of the entities,
the declarations cannot be saved, or it reports (`Generator.attempt_cases`).  Only the last publishes
anything, and only a file that was saved is changed.  So behind any list of runs, whatever the
backend, the layout and the disk did in them, what is published is what the last run that reported
made of its entities (`Session.published_afterAttempts`), and a run that fails leaves it and the
declarations as they were (`Session.attempt_publishes`).
-/

namespace ClientBuild

open Declaration

namespace Generator

variable {g : Generator} {c : Conditions} {s s' : Store} {es : List Entity}

/-! ## What is saved -/

/-- Saving the cache leaves the declarations. -/
theorem leaves_saveCache {r : Except Failure Bool} (h : g.saveCache c s es = (s', r)) :
    Store.Leaves g.settings.target.declarationFile s s' := by
  unfold saveCache at h
  split at h
  next =>
    cases h
    exact Store.Leaves.refl _ s
  next => exact c.writer.leaves isName_cache (declarationFile_ne_cache _).symm h

/-- Declarations that were not saved are left. -/
theorem leaves_saveDeclarations {r : Except Failure Bool} {text : String}
    (h : g.saveDeclarations c s es text = (s', r)) (hr : r ≠ .ok true) :
    Store.Leaves g.settings.target.declarationFile s s' := by
  unfold saveDeclarations at h
  split at h
  next =>
    cases h
    exact Store.Leaves.refl _ s
  next =>
    split at h
    next => exact c.writer.leaves_of_ne h hr _
    next =>
      cases h
      exact Store.Leaves.refl _ s

/-- Without entities, or when their text cannot be laid out, nothing is saved. -/
theorem saveDeclarations_eq {text : String}
    (h : es = [] ∨ ∃ e, c.layout text.toList = .error e) :
    g.saveDeclarations c s es text = (s, .ok false) := by
  unfold saveDeclarations
  rcases h with rfl | ⟨e, he⟩
  · rfl
  · rw [he]
    exact ite_self _

/-! ## How a run ends -/

/-- The four ways in which a run can end. -/
theorem attempt_cases {r : RunEnd} (h : g.attempt c s = r)
    (hes : g.entities c.toEnvironment s = es) :
    (∃ e, g.saveCache c s es = (r.store, .error e) ∧ r.result = .error e) ∨
      (∃ b e, g.saveCache c s es = (r.store, .ok b) ∧ g.synthesized c es = .error e ∧
        r.result = .error e) ∨
      (∃ s' b out e, g.saveCache c s es = (s', .ok b) ∧ g.synthesized c es = .ok out ∧
        g.saveDeclarations c s' es out.text = (r.store, .error e) ∧ r.result = .error e) ∨
      ∃ s' b out report, g.saveCache c s es = (s', .ok b) ∧ g.synthesized c es = .ok out ∧
        g.saveDeclarations c s' es out.text = (r.store, .ok report.declarationWritten) ∧
        r.result = .ok (report, g.published es) ∧ report.entityCount = es.length ∧
        report.serviceTypes = (g.published es).service.types := by
  subst h
  simp only [attempt, hes]
  cases g.saveCache c s es with
  | mk s' saved =>
    cases saved with
    | error e => exact .inl ⟨e, rfl, rfl⟩
    | ok b =>
      cases g.synthesized c es with
      | error e => exact .inr (.inl ⟨b, e, rfl, rfl, rfl⟩)
      | ok out =>
        cases hsave : g.saveDeclarations c s' es out.text with
        | mk s'' written =>
          simp only [hsave]
          cases written with
          | error e => exact .inr (.inr (.inl ⟨s', b, out, e, rfl, rfl, hsave, rfl⟩))
          | ok written =>
            exact .inr (.inr (.inr ⟨s', b, out, _, rfl, rfl, hsave, rfl, rfl, rfl⟩))

/-- A run that does not report its declarations written leaves them. -/
theorem leaves_attempt
    (h : ∀ report p, (g.attempt c s).result = .ok (report, p) → report.declarationWritten = false) :
    Store.Leaves g.settings.target.declarationFile s (g.attempt c s).store := by
  rcases attempt_cases rfl rfl with ⟨e, hcache, _⟩ | ⟨b, e, hcache, _, _⟩ |
    ⟨s', b, out, e, hcache, _, hsave, _⟩ | ⟨s', b, out, report, hcache, _, hsave, hresult, _, _⟩
  · exact leaves_saveCache hcache
  · exact leaves_saveCache hcache
  · have hne : (.error e : Except Failure Bool) ≠ .ok true := fun h => by cases h
    exact (leaves_saveCache hcache).trans (leaves_saveDeclarations hsave hne)
  · have hne : (.ok report.declarationWritten : Except Failure Bool) ≠ .ok true := by
      rw [h report _ hresult]
      intro h
      cases h
    exact (leaves_saveCache hcache).trans (leaves_saveDeclarations hsave hne)

/-- What a run that reports publishes, and what it reports of it. -/
theorem attempt_ok {report : Report} {p : Published}
    (h : (g.attempt c s).result = .ok (report, p)) :
    p = g.published (g.entities c.toEnvironment s) ∧ report.entityCount = p.entities.length ∧
      report.serviceTypes = p.service.types := by
  rcases attempt_cases rfl rfl with ⟨e, _, hresult⟩ | ⟨b, e, _, _, hresult⟩ |
    ⟨s', b, out, e, _, _, _, hresult⟩ | ⟨s', b, out, report', _, _, _, hresult, hcount, htypes⟩
  · cases hresult.symm.trans h
  · cases hresult.symm.trans h
  · cases hresult.symm.trans h
  · cases hresult.symm.trans h
    exact ⟨rfl, hcount, htypes⟩

/-- A run without anything to write reports so, provided that it can save its cache. -/
theorem attempt_unwritten {out : Synthesized} (hes : g.entities c.toEnvironment s = es)
    (hout : g.synthesized c es = .ok out)
    (hnone : es = [] ∨ ∃ e, c.layout out.text.toList = .error e) :
    (∀ report p, (g.attempt c s).result = .ok (report, p) → report.declarationWritten = false) ∧
      ∀ s' b, g.saveCache c s es = (s', .ok b) →
        ∃ report p, (g.attempt c s).result = .ok (report, p) := by
  have hsave : ∀ s, g.saveDeclarations c s es out.text = (s, .ok false) :=
    fun s => saveDeclarations_eq hnone
  rcases attempt_cases rfl hes with ⟨e, hcache, hresult⟩ | ⟨b, e, _, herror, _⟩ |
    ⟨s', b, out', e, _, hout', herror, _⟩ | ⟨s', b, out', report', _, hout', hwritten, hresult, _, _⟩
  · refine ⟨fun report p h => ?_, fun s' b h => ?_⟩
    · cases hresult.symm.trans h
    · cases hcache.symm.trans h
  · cases herror.symm.trans hout
  · cases hout'.symm.trans hout
    rw [hsave] at herror
    cases (Prod.mk.inj herror).2
  · cases hout'.symm.trans hout
    rw [hsave] at hwritten
    refine ⟨fun report p h => ?_, fun _ _ _ => ⟨report', _, hresult⟩⟩
    cases hresult.symm.trans h
    exact (Except.ok.inj (Prod.mk.inj hwritten).2).symm

/-- Where no file can be written, a run with entities fails at its cache. -/
theorem attempt_refusing (hw : c.writer = .refusing)
    (hes : (g.entities c.toEnvironment s).isEmpty = false) :
    (g.attempt c s).result = .error (.io g.cachePath "") := by
  have hcache : g.saveCache c s (g.entities c.toEnvironment s) =
      (s, .error (.io g.cachePath "")) := by
    unfold saveCache
    rw [hes, hw]
    rfl
  simp only [attempt, hcache]

end Generator

/-! ## Sessions -/

namespace Session

/-- The session behind a run, and the report of the run. -/
def settle (s : Session) (last : RunEnd) : Session × Except Failure Report :=
  let s := { s with store := last.store, requested := s.requested ++ last.requested }
  match last.result with
  | .ok (report, published) => ({ s with published := published }, .ok report)
  | .error e => (s, .error e)

/-- The session behind one run under conditions, and the report of the run. -/
def afterAttempt (s : Session) (c : Conditions) : Session × Except Failure Report :=
  s.settle (s.generator.attempt c s.store)

/-- The session behind a list of runs. -/
def afterAttempts (s : Session) (cs : List Conditions) : Session :=
  cs.foldl (fun s c => (s.afterAttempt c).1) s

/-- How each of a list of runs ends. -/
def ends (s : Session) : List Conditions → List RunEnd
  | [] => []
  | c :: cs => s.generator.attempt c s.store :: ends (s.afterAttempt c).1 cs

/-- What was published last. -/
def lastPublished (start : Published) (rs : List RunEnd) : Published :=
  ((rs.filterMap fun r => r.result.toOption.map (·.2)).getLast?).getD start

variable (s : Session) (c : Conditions) (cs : List Conditions) (last : RunEnd)

theorem afterAttempt_plain (env : Environment) :
    s.afterAttempt { toEnvironment := env } = s.afterRun env := by
  rw [afterAttempt, Generator.attempt_plain]
  rfl

theorem settle_generator : (s.settle last).1.generator = s.generator := by
  unfold settle
  cases last.result with
  | error e => rfl
  | ok r => rfl

theorem settle_gate : (s.settle last).1.gate = s.gate := by
  unfold settle
  cases last.result with
  | error e => rfl
  | ok r => rfl

theorem settle_store : (s.settle last).1.store = last.store := by
  unfold settle
  cases last.result with
  | error e => rfl
  | ok r => rfl

theorem settle_published :
    (s.settle last).1.published = (last.result.toOption.map (·.2)).getD s.published := by
  unfold settle
  cases last.result with
  | error e => rfl
  | ok r => rfl

/-- A session keeps what is published when a run fails, and publishes what a run that reports
made. -/
theorem settle_cases :
    (∃ e, last.result = .error e ∧ (s.settle last).2 = .error e ∧
      (s.settle last).1.published = s.published) ∨
      ∃ report p, last.result = .ok (report, p) ∧ (s.settle last).2 = .ok report ∧
        (s.settle last).1.published = p := by
  unfold settle
  cases last.result with
  | error e => exact .inl ⟨e, rfl, rfl, rfl⟩
  | ok r => exact .inr ⟨r.1, r.2, rfl, rfl, rfl⟩

theorem afterAttempts_generator : (s.afterAttempts cs).generator = s.generator := by
  induction cs generalizing s with
  | nil => rfl
  | cons c cs ih => exact (ih (s.afterAttempt c).1).trans (settle_generator s _)

theorem lastPublished_cons (start : Published) (rs : List RunEnd) :
    lastPublished start (last :: rs) =
      lastPublished ((last.result.toOption.map (·.2)).getD start) rs := by
  simp only [lastPublished, List.filterMap_cons]
  cases last.result.toOption with
  | none => rfl
  | some r => simp only [Option.map_some, List.getLast?_cons, Option.getD_some]

/-- **What is published is what the last run that reported published.** -/
theorem published_afterAttempts :
    (s.afterAttempts cs).published = lastPublished s.published (s.ends cs) := by
  induction cs generalizing s with
  | nil => rfl
  | cons c cs ih =>
    have hrest := ih (s.afterAttempt c).1
    rw [afterAttempt, settle_published] at hrest
    rw [ends, lastPublished_cons]
    exact hrest

/-! ## One run -/

/-- The file of the declarations is the same behind a run that does not report it written. -/
theorem sameAt_afterAttempt
    (h : ∀ report, (s.afterAttempt c).2 = .ok report → report.declarationWritten = false) :
    s.store.SameAt s.generator.declarationPath (s.afterAttempt c).1.store := by
  rw [afterAttempt, settle_store]
  refine (Generator.leaves_attempt fun report p hr => ?_).sameAt
    (Generator.isName_declarations _)
  rcases settle_cases s (s.generator.attempt c s.store) with ⟨e, he, _, _⟩ |
    ⟨report', p', hok, hresult, _⟩
  · cases he.symm.trans hr
  · cases hok.symm.trans hr
    exact h report hresult

theorem afterAttempt_error {e : Failure} (h : (s.afterAttempt c).2 = .error e) :
    (s.afterAttempt c).1.published = s.published ∧
      s.store.SameAt s.generator.declarationPath (s.afterAttempt c).1.store := by
  rcases settle_cases s (s.generator.attempt c s.store) with ⟨_, _, _, hpublished⟩ |
    ⟨_, _, _, hresult, _⟩
  · refine ⟨hpublished, s.sameAt_afterAttempt c fun report hr => ?_⟩
    cases h.symm.trans hr
  · cases h.symm.trans hresult

theorem afterAttempt_ok {report : Report} (h : (s.afterAttempt c).2 = .ok report) :
    (s.afterAttempt c).1.published =
        s.generator.published (s.generator.entities c.toEnvironment s.store) ∧
      report.entityCount = (s.afterAttempt c).1.published.entities.length ∧
      report.serviceTypes = (s.afterAttempt c).1.published.service.types := by
  rcases settle_cases s (s.generator.attempt c s.store) with ⟨_, _, hresult, _⟩ |
    ⟨report', p, hok, hresult, hpublished⟩
  · cases h.symm.trans hresult
  · cases h.symm.trans hresult
    have hbehind : (s.afterAttempt c).1.published = p := hpublished
    rw [hbehind]
    exact Generator.attempt_ok hok

/-- A run without anything to write reports so, provided that it can save its cache. -/
theorem afterAttempt_unwritten {out : Synthesized}
    (hout : s.generator.synthesized c (s.generator.entities c.toEnvironment s.store) = .ok out)
    (hnone : s.generator.entities c.toEnvironment s.store = [] ∨
      ∃ e, c.layout out.text.toList = .error e) :
    (∀ report, (s.afterAttempt c).2 = .ok report → report.declarationWritten = false) ∧
      ∀ s' b, s.generator.saveCache c s.store (s.generator.entities c.toEnvironment s.store) =
        (s', .ok b) → ∃ report, (s.afterAttempt c).2 = .ok report := by
  obtain ⟨hunwritten, hreports⟩ := Generator.attempt_unwritten rfl hout hnone
  rcases settle_cases s (s.generator.attempt c s.store) with ⟨e, he, hresult, _⟩ |
    ⟨report', p, hok, hresult, _⟩
  · refine ⟨fun report hr => ?_, fun s' b hcache => ?_⟩
    · cases hr.symm.trans hresult
    · obtain ⟨report, p, hr⟩ := hreports s' b hcache
      cases he.symm.trans hr
  · refine ⟨fun report hr => ?_, fun _ _ _ => ⟨report', hresult⟩⟩
    cases hr.symm.trans hresult
    exact hunwritten _ p hok

theorem afterAttempt_refusing (hw : c.writer = .refusing)
    (hes : (s.generator.entities c.toEnvironment s.store).isEmpty = false) :
    (s.afterAttempt c).2 = .error (.io s.generator.cachePath "") := by
  have hfails := Generator.attempt_refusing hw hes
  rcases settle_cases s (s.generator.attempt c s.store) with ⟨e, he, hresult, _⟩ |
    ⟨_, _, hok, _, _⟩
  · cases he.symm.trans hfails
    exact hresult
  · cases hok.symm.trans hfails

/-- **A run publishes all that it made or nothing.**  Behind any list of runs, a run that fails
leaves what is published and the file of the declarations.  A run that reports publishes the entities
that it worked on with the tree and the service object made of them, and its report counts and names
those.  A run without entities, or whose declarations cannot be laid out, leaves the file of the
declarations, reports it as not written, and does report if its cache could be saved.  What was
published before the run is what the last run that reported published. -/
theorem attempt_publishes (s : Session) (past : List Conditions) (c : Conditions) :
    let g := s.generator
    let before := s.afterAttempts past
    let behind := (before.afterAttempt c).1
    let result := (before.afterAttempt c).2
    let es := g.entities c.toEnvironment before.store
    (∀ e, result = .error e → behind.published = before.published ∧
      before.store.SameAt g.declarationPath behind.store) ∧
    (∀ report, result = .ok report →
      behind.published.entities = es ∧
      behind.published.tree = RouteTree.build g.settings.namespaceId es ∧
      behind.published.service = ServiceObject.build behind.published.tree es ∧
      report.entityCount = behind.published.entities.length ∧
      report.serviceTypes = behind.published.service.types) ∧
    (∀ out, g.synthesized c es = .ok out → (es = [] ∨ ∃ e, c.layout out.text.toList = .error e) →
      before.store.SameAt g.declarationPath behind.store ∧
      (∀ report, result = .ok report → report.declarationWritten = false) ∧
      ∀ s' b, g.saveCache c before.store es = (s', .ok b) → ∃ report, result = .ok report) ∧
    before.published = lastPublished s.published (s.ends past) := by
  intro g before behind result es
  have hg : before.generator = g := afterAttempts_generator s past
  have hes : es = before.generator.entities c.toEnvironment before.store := by rw [hg]
  rw [hes, ← hg]
  refine ⟨fun e he => before.afterAttempt_error c he, fun report hr => ?_,
    fun out hout hnone => ?_, published_afterAttempts s past⟩
  · obtain ⟨hpublished, hcount, htypes⟩ := before.afterAttempt_ok c hr
    have hbehind : behind.published = before.generator.published
        (before.generator.entities c.toEnvironment before.store) := hpublished
    refine ⟨?_, ?_, ?_, hcount, htypes⟩
    all_goals
      rw [hbehind]
      rfl
  · obtain ⟨hfalse, hreports⟩ := before.afterAttempt_unwritten c hout hnone
    exact ⟨before.sameAt_afterAttempt c hfalse, hfalse, hreports⟩

/-- A session before its first run. -/
def fresh : Session := { generator := Generator.standard }

/-- What a run finds when the backend answers with one entity and its declarations cannot be laid
out. -/
def unformatted : Conditions where
  toEnvironment := Generator.standard.answering (some Generator.userAnswer)

/-- The same on a full disk. -/
def fullDisk : Conditions where
  toEnvironment := Generator.standard.answering (some Generator.userAnswer)
  writer := .refusing

/-- Behind a run that could not lay out its declarations, a run on a full disk leaves what that one
published. -/
theorem attempt_publishes_fullDisk :
    (fresh.afterAttempts [unformatted]).published.entities.length = 1 ∧
      ((fresh.afterAttempts [unformatted]).afterAttempt fullDisk).2 =
        .error (.io Generator.standard.cachePath "") ∧
      ((fresh.afterAttempts [unformatted]).afterAttempt fullDisk).1.published =
        (fresh.afterAttempts [unformatted]).published := by
  have hlength : (fresh.afterAttempts [unformatted]).published.entities.length = 1 := by
    decide +kernel
  have hg : (fresh.afterAttempts [unformatted]).generator = Generator.standard :=
    afterAttempts_generator fresh [unformatted]
  have hfails := afterAttempt_refusing (fresh.afterAttempts [unformatted]) fullDisk rfl
    (by rw [hg]; rfl)
  rw [hg] at hfails
  exact ⟨hlength, hfails,
    ((attempt_publishes fresh [unformatted] fullDisk).1 _ hfails).1⟩

end Session

end ClientBuild
