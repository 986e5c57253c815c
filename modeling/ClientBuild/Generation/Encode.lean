import ClientBuild.Generation.Run

/-!
# Reports as JSON

What a run reports, as it is shown to the person who started it.
-/

namespace ClientBuild

/-- A collision as an object. -/
def Collision.toJson (c : Collision) : Json :=
  .object [("kind", .string c.kind.name), ("name", .string c.name), ("detail", .string c.detail)]

/-- A report with the time at which the run was over. -/
def Report.toJson (r : Report) (time : String) : Json :=
  .object
    [("target", .string r.target.name),
     ("schema_url", .string r.schemaUrl),
     ("origin", .string r.origin.name),
     ("entity_count", .ofNat r.entityCount),
     ("cache_updated", .bool r.cacheUpdated),
     ("declaration_path", .string r.declarationPath),
     ("declaration_written", .bool r.declarationWritten),
     ("collisions", .array (r.collisions.map Collision.toJson)),
     ("service_types", .ofStrings r.serviceTypes),
     ("generated_at", .string time)]

end ClientBuild
