import ClientBuild.Generation.Session
import ClientBuild.Proofs.Generation.Run

/-!
# Runs whose writes may fail

A disk may be full and a file may be locked, which no path shows.  `Writer` is any way of writing
files that touches nothing but the file it writes, and not even that when it fails;
`Generator.attempt` is a run that writes in such a way.  With `Writer.plain`, which fails only where
a path leads nowhere, it is the run itself (`Generator.attempt_plain`).  What an attempt does is said
once, in `Generator.attempt_cases`.
-/

namespace ClientBuild

open Declaration

/-! ## Files that stay as they are -/

namespace Store

/-- Every file of that name holds what it held before. -/
def Leaves (name : String) (s s' : Store) : Prop :=
  ∀ l : Location, l.getLast? = some name → s'.fileAt? l = s.fileAt? l

/-- Wherever the path leads, before or behind, the file there holds what it held before. -/
def SameAt (p : String) (s s' : Store) : Prop :=
  ∀ l, s.locateFile? p = some l ∨ s'.locateFile? p = some l → s'.fileAt? l = s.fileAt? l

theorem Leaves.refl (name : String) (s : Store) : Leaves name s s := fun _ _ => rfl

theorem Leaves.trans {name : String} {s t u : Store} (h : Leaves name s t)
    (h' : Leaves name t u) : Leaves name s u :=
  fun l hl => (h' l hl).trans (h l hl)

theorem Leaves.sameAt {name base : String} {s s' : Store} (hn : FilePath.IsName name)
    (h : Leaves name s s') : SameAt (FilePath.join base name) s s' := by
  intro l hl
  rcases hl with hl | hl
  · exact h l (getLast?_of_locateFile? hn hl)
  · exact h l (getLast?_of_locateFile? hn hl)

end Store

/-! ## Ways of writing files -/

/-- A way of writing files unless they hold their text already. -/
structure Writer where
  write : Store → String → String → Store × Except Failure Bool
  /-- Unless the file was written, no file changes. -/
  untouched : ∀ {s s' : Store} {p text : String} {r : Except Failure Bool},
    write s p text = (s', r) → r ≠ .ok true → ∀ l, s'.fileAt? l = s.fileAt? l
  /-- Writing a file changes no other. -/
  others : ∀ {s s' : Store} {p text : String}, write s p text = (s', .ok true) →
    ∀ l, s'.locateFile? p ≠ some l → s'.fileAt? l = s.fileAt? l

namespace Writer

/-- Writing that fails only where a path does not lead to a place for a file. -/
def plain : Writer where
  write := Store.writeIfChanged
  untouched := by
    intro s s' p text r h hr l
    rcases Store.writeIfChanged_cases h with ⟨_, rfl, _⟩ | ⟨hgrown, _⟩ | ⟨_, _, _, _, _, hok⟩
    · rfl
    · exact hgrown.fileAt? l
    · exact absurd hok hr
  others := by
    intro s s' p text h l hl
    rcases Store.writeIfChanged_cases h with ⟨_, rfl, _⟩ | ⟨hgrown, _⟩ | ⟨g, k, hgrown, hk, rfl, _⟩
    · rfl
    · exact hgrown.fileAt? l
    · have hne : l ≠ k := by
        rintro rfl
        exact hl ((Store.locateFile?_setFile g l text p).trans hk)
      exact (Store.fileAt?_setFile_of_ne g k text hne).trans (hgrown.fileAt? l)

/-- Writing where no file can be written. -/
def refusing : Writer where
  write := fun s p _ => (s, .error (.io p ""))
  untouched := by
    intro s s' p text r h hr l
    cases h
    rfl
  others := by
    intro s s' p text h
    cases h

variable (w : Writer) {s s' : Store} {r : Except Failure Bool}

/-- Writing a file leaves those with another name. -/
theorem leaves {base name other text : String} (hname : FilePath.IsName name)
    (hne : name ≠ other) (h : w.write s (FilePath.join base name) text = (s', r)) :
    Store.Leaves other s s' := by
  intro l hl
  by_cases hr : r = .ok true
  · subst hr
    refine w.others h l fun hlocate => hne ?_
    have hlast := Store.getLast?_of_locateFile? hname hlocate
    exact Option.some.inj (hlast.symm.trans hl)
  · exact w.untouched h hr l

/-- A file that was not written leaves those of every name. -/
theorem leaves_of_ne {p text : String} (h : w.write s p text = (s', r)) (hr : r ≠ .ok true)
    (name : String) : Store.Leaves name s s' :=
  fun l _ => w.untouched h hr l

end Writer

/-- What a run finds outside, and how its files are written. -/
structure Conditions extends Environment where
  writer : Writer := .plain

namespace Generator

variable (g : Generator) (c : Conditions) (s : Store) (es : List Entity)

/-! ## Runs under conditions -/

/-- Write the cache of entities, if there are any. -/
def saveCache : Store × Except Failure Bool :=
  if es.isEmpty then (s, .ok false)
  else c.writer.write s g.cachePath (Cache.content g.settings.target es)

/-- Lay out declarations and write them, if there are entities. -/
def saveDeclarations (text : String) : Store × Except Failure Bool :=
  if es.isEmpty then (s, .ok false)
  else
    match c.layout text.toList with
    | .ok out => c.writer.write s g.declarationPath (String.ofList out)
    | .error _ => (s, .ok false)

/-- What a run declares of its entities. -/
def synthesized : Except Failure Synthesized :=
  synthesize g.settings.target g.types es (g.published es).tree
    ((c.answer g.settings.dictUrl).bind dictionaryOfAnswer?)

/-- One run under conditions. -/
def attempt : RunEnd :=
  let es := g.entities c.toEnvironment s
  match g.saveCache c s es with
  | (s, .error e) => ⟨s, [g.settings.schemaUrl], .error e⟩
  | (s', .ok updated) =>
    let requested := [g.settings.schemaUrl, g.settings.dictUrl]
    match g.synthesized c es with
    | .error e => ⟨s', requested, .error e⟩
    | .ok out =>
      match g.saveDeclarations c s' es out.text with
      | (s'', .error e) => ⟨s'', requested, .error e⟩
      | (s'', .ok written) =>
        ⟨s'', requested,
          .ok (g.report (g.published es) (g.fetched c.toEnvironment s).2 updated out.collisions
            written, g.published es)⟩

/-- A run is an attempt whose writes fail only where a path leads nowhere. -/
theorem attempt_plain (env : Environment) : g.attempt { toEnvironment := env } s = g.run env s := by
  have hfetch : fetchSchema g.settings.target (env.answer g.settings.schemaUrl)
      (Cache.read s g.cachePath) = (g.entities env s, (g.fetched env s).2) := rfl
  have hsave : ∀ es, g.saveCache { toEnvironment := env } s es =
      Cache.write s g.cachePath g.settings.target es := by
    intro es
    rw [saveCache, Cache.write, Writer.plain]
  rw [attempt, run]
  dsimp only
  rw [hfetch, hsave]
  generalize g.entities env s = es
  cases Cache.write s g.cachePath g.settings.target es with
  | mk s' updated =>
    cases updated with
    | error e => rfl
    | ok updated => rfl

end Generator

end ClientBuild
