import ClientBuild.Declaration.Layout
import ClientBuild.Declaration.ServiceObject
import ClientBuild.Schema.Cache
import ClientBuild.Settings.Basic

/-!
# Generation runs

A run asks the backend for the schema, refreshes the cache, asks for the dictionary, and writes
the declarations.  What it published before stays as it is when the run fails.
-/

namespace ClientBuild

open Declaration

/-- What a run finds outside: what the backend answers at an address, and how texts are laid
out. -/
structure Environment where
  answer : String → Option Json
  layout : List Char → Except Failure (List Char)

/-- What the last successful run published. -/
structure Published where
  entities : List Entity := []
  tree : RouteTree := []
  service : ServiceObject := {}
deriving Inhabited

/-- What a successful run reports. -/
structure Report where
  target : Target
  schemaUrl : String
  origin : Origin
  entityCount : Nat
  cacheUpdated : Bool
  declarationPath : String
  declarationWritten : Bool
  collisions : List Collision
  serviceTypes : List String

/-- The end of a run: the files, the addresses that were asked, and what came of it. -/
structure RunEnd where
  store : Store
  requested : List String
  result : Except Failure (Report × Published)

/-- What generates: the settings and the mapping of column types. -/
structure Generator where
  settings : Settings
  types : TypeMap

namespace Generator

/-- The generator of valid settings. -/
def ofSettings (s : Settings) : Except Failure Generator := do
  s.validate
  pure ⟨s, TypeMap.ofRules s.schema.mapping⟩

/-- The file that holds the cache. -/
def cachePath (g : Generator) : String := FilePath.join g.settings.distDir Cache.fileName

/-- The file that holds the declarations. -/
def declarationPath (g : Generator) : String :=
  FilePath.join g.settings.distDir g.settings.target.declarationFile

/-- What a list of entities publishes. -/
def published (g : Generator) (es : List Entity) : Published :=
  let tree := RouteTree.build g.settings.namespaceId es
  ⟨es, tree, ServiceObject.build tree es⟩

/-- Lay out declarations and write them if they changed.  A text that cannot be laid out is not
written, nor are declarations without entities. -/
def writeDeclarations (g : Generator) (env : Environment) (store : Store) (es : List Entity)
    (text : String) : Store × Except Failure Bool :=
  if es.isEmpty then (store, .ok false)
  else
    match env.layout text.toList with
    | .ok out => store.writeIfChanged g.declarationPath (String.ofList out)
    | .error _ => (store, .ok false)

/-- The report of a run that came to its end. -/
def report (g : Generator) (p : Published) (origin : Origin) (cacheUpdated : Bool)
    (collisions : List Collision) (written : Bool) : Report :=
  { target := g.settings.target
    schemaUrl := g.settings.schemaUrl
    origin := origin
    entityCount := p.entities.length
    cacheUpdated := cacheUpdated
    declarationPath := g.declarationPath
    declarationWritten := written
    collisions := collisions
    serviceTypes := p.service.types }

/-- The part of a run behind the cache: dictionary, declarations, report. -/
def finishRun (g : Generator) (env : Environment) (store : Store) (p : Published)
    (origin : Origin) (cacheUpdated : Bool) : RunEnd :=
  let requested := [g.settings.schemaUrl, g.settings.dictUrl]
  let keys := (env.answer g.settings.dictUrl).bind dictionaryOfAnswer?
  match synthesize g.settings.target g.types p.entities p.tree keys with
  | .error e => ⟨store, requested, .error e⟩
  | .ok out =>
    match g.writeDeclarations env store p.entities out.text with
    | (store, .error e) => ⟨store, requested, .error e⟩
    | (store, .ok written) =>
      ⟨store, requested, .ok (g.report p origin cacheUpdated out.collisions written, p)⟩

/-- One run. -/
def run (g : Generator) (env : Environment) (store : Store) : RunEnd :=
  let cached := Cache.read store g.cachePath
  let (es, origin) :=
    fetchSchema g.settings.target (env.answer g.settings.schemaUrl) cached
  match Cache.write store g.cachePath g.settings.target es with
  | (store, .error e) => ⟨store, [g.settings.schemaUrl], .error e⟩
  | (store, .ok updated) => g.finishRun env store (g.published es) origin updated

end Generator

end ClientBuild
