import ClientBuild.Proofs.Schema.Comments
import ClientBuild.Proofs.Schema.ReadBack
import ClientBuild.Proofs.Store
import ClientBuild.Schema.Cache

/-!
# What the cache keeps

Reading the cache of a list of entities gives what the target stores of each of them: the entity
itself for the cross-platform target, its short form for the others (`Cache.parse_content`).  The
list that was cached is normalized (`Normalized`), and its stored forms still are, so normalizing
again changes nothing, and the cache of what was read is the cache that was read
(`Cache.content_stored`).
-/

namespace ClientBuild

open Json

/-! ## Normalized lists -/

/-- Does the target use the entity? -/
def Target.uses (t : Target) (e : Entity) : Bool :=
  !t.isClient || Text.startsWith "/app".toList e.route.toList ||
    Text.startsWith "/admin".toList e.route.toList

theorem normalize_eq (t : Target) (es : List Entity) :
    normalize t es = (es.filter t.uses).map Entity.fillSearch := rfl

/-- A list that normalizing may have left: entities that can have been read, that the target uses,
and that have search groups. -/
structure Normalized (t : Target) (es : List Entity) : Prop where
  wellFormed : ∀ e ∈ es, e.WellFormed
  used : ∀ e ∈ es, t.uses e = true
  search : ∀ e ∈ es, e.search.isSome = true

theorem normalized_normalize {t : Target} {es : List Entity} (h : ∀ e ∈ es, e.WellFormed) :
    Normalized t (normalize t es) := by
  rw [normalize_eq]
  refine ⟨?_, ?_, ?_⟩
  · intro e he
    obtain ⟨d, hd, rfl⟩ := List.mem_map.1 he
    exact (h d (List.mem_filter.1 hd).1).fillSearch
  · intro e he
    obtain ⟨d, hd, rfl⟩ := List.mem_map.1 he
    have hroute : t.uses d.fillSearch = t.uses d := by
      simp only [Target.uses, Entity.fillSearch_route]
    exact hroute.trans (List.mem_filter.1 hd).2
  · intro e he
    obtain ⟨d, _, rfl⟩ := List.mem_map.1 he
    exact d.fillSearch_isSome

/-- Normalizing leaves a normalized list as it is. -/
theorem Normalized.normalize_eq_self {t : Target} {es : List Entity} (h : Normalized t es) :
    normalize t es = es := by
  have hmap : es.map Entity.fillSearch = es.map id := by
    refine List.map_congr_left fun e he => ?_
    obtain ⟨s, hs⟩ := Option.isSome_iff_exists.1 (h.search e he)
    exact Entity.fillSearch_of_some hs
  rw [normalize_eq, List.filter_eq_self.2 h.used, hmap, List.map_id]

/-! ## Stored forms -/

namespace Cache

/-- What the cache of a target keeps of an entity. -/
def stored (t : Target) (e : Entity) : Entity := if t.isCrossPlatform then e else e.short

/-- The value whose text is the cache of a list of entities. -/
def value (t : Target) (es : List Entity) : Json :=
  if t.isCrossPlatform then Entity.listToJson es else .array (es.map Entity.summaryJson)

theorem stored_eq_id {t : Target} (ht : t.isCrossPlatform = true) : stored t = id :=
  funext fun e => by simp [stored, ht]

theorem stored_eq_short {t : Target} (ht : t.isCrossPlatform = false) : stored t = Entity.short :=
  funext fun e => by simp [stored, ht]

theorem content_eq (t : Target) (es : List Entity) : content t es = (value t es).compact := by
  unfold content value
  split
  · rfl
  · rfl

end Cache

theorem Method.wellFormed_short (m : Method) : m.short.WellFormed := extraFor_nil Method.keys

theorem Entity.short_short (e : Entity) : e.short.short = e.short := by
  simp only [short, List.map_map]
  rfl

theorem Entity.summaryJson_short (e : Entity) : e.short.summaryJson = e.summaryJson := by
  simp only [summaryJson, short, List.map_map]
  rfl

theorem Entity.map_summaryJson_short (es : List Entity) :
    (es.map short).map summaryJson = es.map summaryJson := by
  rw [List.map_map]
  exact List.map_congr_left fun e _ => e.summaryJson_short

theorem Entity.WellFormed.short {e : Entity} (h : e.WellFormed) : e.short.WellFormed := by
  refine ⟨?_, ?_, ?_, ?_, h.search, extraFor_nil keys⟩
  · intro m hm
    obtain ⟨m, _, rfl⟩ := List.mem_map.1 hm
    exact m.wellFormed_short
  · exact fun c hc => absurd hc List.not_mem_nil
  · exact fun c hc => absurd hc List.not_mem_nil
  · exact fun q hq => nomatch hq

namespace Cache

variable {t : Target} {es : List Entity}

/-- The stored forms of a normalized list are one. -/
theorem normalized_stored (h : Normalized t es) : Normalized t (es.map (stored t)) := by
  unfold stored
  split
  next => rwa [List.map_id']
  next =>
    refine ⟨?_, ?_, ?_⟩
    · intro e he
      obtain ⟨d, hd, rfl⟩ := List.mem_map.1 he
      exact (h.wellFormed d hd).short
    · intro e he
      obtain ⟨d, hd, rfl⟩ := List.mem_map.1 he
      exact h.used d hd
    · intro e he
      obtain ⟨d, hd, rfl⟩ := List.mem_map.1 he
      exact h.search d hd

/-- The stored forms have the cache of what they were stored of. -/
theorem value_stored (t : Target) (es : List Entity) : value t (es.map (stored t)) = value t es := by
  unfold stored value
  split
  next => rw [List.map_id']
  next =>
    exact congrArg Json.array (Entity.map_summaryJson_short es)

theorem short_stored (t : Target) (e : Entity) : (stored t e).short = e.short := by
  unfold stored
  split
  · rfl
  · exact e.short_short

theorem stored_stored (t : Target) (e : Entity) : stored t (stored t e) = stored t e := by
  unfold stored
  split
  · rfl
  · exact e.short_short

theorem content_stored (t : Target) (es : List Entity) :
    content t (es.map (stored t)) = content t es := by
  rw [content_eq, content_eq, value_stored]

/-! ## Reading the cache -/

/-- Reading entities passes over nothing that is in a cache. -/
theorem keeps_value (h : ∀ e ∈ es, e.WellFormed) : (Shape.list Entity.shape).Keeps (value t es) := by
  unfold value
  split
  next =>
    refine Shape.keeps_list.2 fun v hv => ?_
    obtain ⟨e, he, rfl⟩ := List.mem_map.1 hv
    exact Entity.keeps_toJson (h e he)
  next =>
    refine Shape.keeps_list.2 fun v hv => ?_
    obtain ⟨e, _, rfl⟩ := List.mem_map.1 hv
    exact e.keeps_summaryJson

theorem listOfJson?_value (h : ∀ e ∈ es, e.WellFormed) :
    Entity.listOfJson? (value t es) = some (es.map (stored t)) := by
  unfold value stored
  split
  next =>
    rw [List.map_id']
    exact asList_map fun e he => Entity.ofJson?_toJson (h e he)
  next =>
    rw [← Entity.map_summaryJson_short es]
    refine asList_map fun e he => ?_
    obtain ⟨d, hd, rfl⟩ := List.mem_map.1 he
    rw [d.summaryJson_short]
    exact Entity.ofJson?_summaryJson (h d hd).search

/-- **The cache of a list of entities holds the stored form of each of them.** -/
theorem parse_content (h : ∀ e ∈ es, e.WellFormed) (hr : (value t es).ReadsBack depthLimit) :
    parse (content t es) = es.map (stored t) := by
  rw [parse, content_eq, compact, String.toList_ofList, Comments.strip_render,
    Entity.parseList?, readAs?_render (keeps_value h) hr, Option.bind_some, listOfJson?_value h]
  rfl

theorem read_eq {s : Store} {path text : String} (h : s.read? path = some text) :
    read s path = parse text := by
  rw [read, h]

theorem read_of_read?_eq_none {s : Store} {path : String} (h : s.read? path = none) :
    read s path = [] := by
  rw [read, h]

theorem readsBack_value {room : Nat} (t : Target) (h : ∀ e ∈ es, e.WritesBack room) :
    (value t es).ReadsBack (room + 8) := by
  unfold value
  split
  next =>
    refine readsBack_array.2 fun v hv => ?_
    obtain ⟨e, he, rfl⟩ := List.mem_map.1 hv
    exact (h e he).readsBack_toJson
  next =>
    refine readsBack_array.2 fun v hv => ?_
    obtain ⟨e, he, rfl⟩ := List.mem_map.1 hv
    exact (h e he).readsBack_summaryJson

/-- The cache of a list that was read from values that read back reads back itself. -/
theorem readsBack_value_normalize {room : Nat} (t : Target) (h : ∀ e ∈ es, e.WritesBack room) :
    (value t (normalize t es)).ReadsBack (room + 9) := by
  refine readsBack_value t fun e he => ?_
  rw [normalize_eq] at he
  obtain ⟨d, hd, rfl⟩ := List.mem_map.1 he
  exact (h d (List.mem_filter.1 hd).1).fillSearch

/-- A list whose cache reads as what was stored of it. -/
structure Kept (t : Target) (es : List Entity) : Prop where
  normalized : Normalized t es
  readsBack : (value t es).ReadsBack depthLimit

theorem kept_nil (t : Target) : Kept t [] := by
  have hnil : ∀ e ∈ ([] : List Entity), e.WritesBack 119 := fun _ h => absurd h List.not_mem_nil
  refine ⟨⟨?_, ?_, ?_⟩, readsBack_value t hnil⟩
  · exact fun _ h => absurd h List.not_mem_nil
  · exact fun _ h => absurd h List.not_mem_nil
  · exact fun _ h => absurd h List.not_mem_nil

theorem Kept.stored (h : Kept t es) : Kept t (es.map (Cache.stored t)) where
  normalized := normalized_stored h.normalized
  readsBack := (value_stored t es).symm ▸ h.readsBack

/-- A cache that is there already is not written. -/
theorem write_of_read? {s : Store} {path : String} (h : s.read? path = some (content t es)) :
    write s path t es = (s, .ok false) := by
  unfold write
  split
  next => rfl
  next => exact Store.writeIfChanged_of_read? h

/-- Normalizing what the cache of a normalized list holds gives the stored forms. -/
theorem normalize_read {s : Store} {path : String} (h : Normalized t es)
    (hr : (value t es).ReadsBack depthLimit) (hs : s.read? path = some (content t es)) :
    normalize t (read s path) = es.map (stored t) := by
  rw [read_eq hs, parse_content h.wellFormed hr]
  exact (normalized_stored h).normalize_eq_self

/-- **Reading a cache undoes writing it.**  The entities read from the cache of a normalized list
have that same cache; they are the entities themselves for the cross-platform target, and their
short forms for the others. -/
theorem normalize_read_content (t : Target) (decoded : List Entity)
    (hdecoded : ∀ e ∈ decoded, ∃ v, Entity.ofJson? v = some e) (s : Store) (path : String)
    (hfile : s.read? path = some (content t (normalize t decoded)))
    (hr : (value t (normalize t decoded)).ReadsBack depthLimit) :
    content t (normalize t (read s path)) = content t (normalize t decoded) ∧
      (t.isCrossPlatform = true → normalize t (read s path) = normalize t decoded) ∧
      (t.isCrossPlatform = false →
        normalize t (read s path) = (normalize t decoded).map Entity.short) := by
  have hn : Normalized t (normalize t decoded) := by
    refine normalized_normalize fun e he => ?_
    obtain ⟨v, hv⟩ := hdecoded e he
    exact Entity.wellFormed_of_ofJson? hv
  have hread := normalize_read hn hr hfile
  refine ⟨?_, ?_, ?_⟩
  · rw [hread, content_stored]
  · intro ht
    rw [hread, stored_eq_id ht, List.map_id]
  · intro ht
    rw [hread, stored_eq_short ht]

/-- The cache of an entity with derived search groups and an extra number gives both back. -/
theorem normalize_read_content_rank :
    let e : Entity :=
      { route := "/app/rank", name := "RankEntity"
        columns := [{ propertyName := "score", type := "int", source := "a.score" }]
        pageQuery := some { fieldEq := [.string "a.score"] }
        extra := [("order", .number (.integer 3))] }
    let s : Store := { files := [(["eps.json"], content .uniappX (normalize .uniappX [e]))] }
    normalize .uniappX (read s "eps.json") = normalize .uniappX [e] := by
  intro e s
  have he : Entity.ofJson? e.toJson = some e := rfl
  have hback : e.WritesBack 118 := by
    refine ⟨?_, ?_, ?_, ?_, ?_, ?_⟩
    · exact fun m hm => absurd hm List.not_mem_nil
    · exact List.forall_mem_singleton.2 (Column.readsBack_toJson.2 fun _ h => nomatch h)
    · exact fun c hc => absurd hc List.not_mem_nil
    · rintro q ⟨⟩
      refine PageQuery.readsBack_toJson.2 ⟨List.forall_mem_singleton.2 trivial, ?_, ?_⟩
      · exact fun v hv => absurd hv List.not_mem_nil
      · exact fun v hv => absurd hv List.not_mem_nil
    · exact fun s hs => nomatch hs
    · exact List.forall_mem_singleton.2 (readsBack_integer 124 ⟨by decide, by decide⟩)
  have hr := readsBack_value_normalize .uniappX (List.forall_mem_singleton.2 hback)
  have hfile : s.read? "eps.json" = some (content .uniappX (normalize .uniappX [e])) := rfl
  exact (normalize_read_content .uniappX [e] (List.forall_mem_singleton.2 ⟨e.toJson, he⟩) s
    "eps.json" hfile hr).2.1 rfl

end Cache

end ClientBuild
