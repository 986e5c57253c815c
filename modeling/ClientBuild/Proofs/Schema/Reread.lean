import ClientBuild.Proofs.Schema.Cache

/-!
# Caches whose numbers read as others

Without any assumption on numbers and nesting a cache is either not read at all, or it holds the
stored forms of the entities with their numbers read again (`Cache.parse_content_cases`).  Numbers
stand only in members that are not modelled, in search groups and in the sources of page queries.
-/

namespace ClientBuild

open Json

theorem Json.rereadMembers_append (ms ns : List (String × Json)) :
    rereadMembers (ms ++ ns) = rereadMembers ms ++ rereadMembers ns := by
  simp only [rereadMembers_eq, Assoc.mapValues, List.map_append]

theorem Json.rereadMembers_whenSome {α : Type} {key : String} {f : α → Json} {r : α → α}
    (h : ∀ a, (f a).reread = f (r a)) : ∀ o : Option α,
    rereadMembers (whenSome key f o) = whenSome key f (o.map r)
  | none => rfl
  | some a => by simp only [whenSome, rereadMembers, h, Option.map_some]

theorem Json.rereadMembers_whenString (key : String) : ∀ o : Option String,
    rereadMembers (whenSome key .string o) = whenSome key .string o
  | none => rfl
  | some _ => rfl

theorem Json.rereadItems_map {α : Type} {f : α → Json} {r : α → α}
    (h : ∀ a, (f a).reread = f (r a)) (as : List α) :
    rereadItems (as.map f) = (as.map r).map f := by
  simp only [rereadItems_eq, List.map_map, Function.comp_def, h]

theorem Json.rereadMembers_whenAny {α : Type} {key : String} {f : α → Json} {r : α → α}
    (h : ∀ a, (f a).reread = f (r a)) : ∀ as : List α,
    rereadMembers (whenAny key f as) = whenAny key f (as.map r)
  | [] => rfl
  | a :: as => by
      simp only [whenAny, rereadMembers, Json.reread, rereadItems_map h]
      rfl

theorem Json.ExtraFor.reread {keys : List String} {extra : List (String × Json)}
    (h : ExtraFor keys extra) : ExtraFor keys (rereadMembers extra) where
  unmodelled := by
    intro m hm
    rw [rereadMembers_eq] at hm
    obtain ⟨n, hn, rfl⟩ := List.mem_map.1 hm
    exact h.unmodelled n hn
  unique := by
    rw [rereadMembers_eq, Assoc.keys_mapValues]
    exact h.unique
  settled := by rw [← rereadMembers_settledMembers, h.settled]

/-- The column with the numbers of its extra members read again. -/
def Column.reread (c : Column) : Column := { c with extra := rereadMembers c.extra }

/-- The method with the numbers of its extra members read again. -/
def Method.reread (m : Method) : Method := { m with extra := rereadMembers m.extra }

/-- The sources of a page query with their numbers read again. -/
def PageQuery.reread (q : PageQuery) : PageQuery where
  fieldEq := q.fieldEq.map Json.reread
  fieldLike := q.fieldLike.map Json.reread
  keyWordLikeFields := q.keyWordLikeFields.map Json.reread

/-- Search groups with the numbers of their columns read again. -/
def Search.reread (s : Search) : Search where
  fieldEq := s.fieldEq.map Column.reread
  fieldLike := s.fieldLike.map Column.reread
  keyWordLikeFields := s.keyWordLikeFields.map Column.reread

/-- The entity with all its numbers read again. -/
def Entity.reread (e : Entity) : Entity :=
  { e with
    methods := e.methods.map Method.reread
    columns := e.columns.map Column.reread
    pageColumns := e.pageColumns.map Column.reread
    pageQuery := e.pageQuery.map PageQuery.reread
    search := e.search.map Search.reread
    extra := rereadMembers e.extra }

/-! ## Writing commutes with reading the numbers again -/

theorem Column.reread_toJson (c : Column) : c.toJson.reread = c.reread.toJson := by
  rw [toJson_eq, Json.reread, rereadMembers_append]
  rfl

theorem Parameter.reread_toJson (p : Parameter) : p.toJson.reread = p.toJson := by
  simp only [toJson, Json.reread, rereadMembers_append, rereadMembers_whenString, rereadMembers]

theorem Method.reread_parameterMembers : ∀ ps : List Parameter,
    rereadMembers (parameterMembers ps) = parameterMembers ps
  | [] => rfl
  | p :: ps => by
      have hps : rereadItems ((p :: ps).map Parameter.toJson) = (p :: ps).map Parameter.toJson := by
        simp only [rereadItems_eq, List.map_map, Function.comp_def, Parameter.reread_toJson]
      simp only [parameterMembers, List.isEmpty_cons, Bool.false_eq_true, if_false, rereadMembers,
        Json.reread, hps]

theorem Method.reread_toJson (m : Method) : m.toJson.reread = m.reread.toJson := by
  rw [toJson_eq, toJson_eq, Json.reread]
  simp only [members, rereadMembers_append, rereadMembers_whenString, reread_parameterMembers]
  rfl

theorem PageQuery.reread_toJson (q : PageQuery) : q.toJson.reread = q.reread.toJson := by
  simp only [toJson, Json.reread, rereadMembers, rereadItems_eq]
  rfl

theorem Search.reread_toJson (s : Search) : s.toJson.reread = s.reread.toJson := by
  simp only [toJson, Json.reread, rereadMembers, rereadItems_map Column.reread_toJson]
  rfl

theorem Entity.reread_toJson (e : Entity) : e.toJson.reread = e.reread.toJson := by
  rw [toJson_eq, toJson_eq, Json.reread]
  simp only [members, rereadMembers_append, rereadMembers_whenString,
    rereadMembers_whenAny Column.reread_toJson, rereadMembers_whenSome PageQuery.reread_toJson,
    rereadMembers_whenSome Search.reread_toJson, rereadMembers, Json.reread,
    rereadItems_map Column.reread_toJson, rereadItems_map Method.reread_toJson]
  rfl

theorem Method.reread_summaryJson (m : Method) : m.summaryJson.reread = m.reread.summaryJson := by
  simp only [summaryJson, Json.reread, rereadMembers_append, rereadMembers_whenString,
    rereadMembers]
  rfl

theorem Entity.reread_summaryJson (e : Entity) : e.summaryJson.reread = e.reread.summaryJson := by
  simp only [summaryJson, Json.reread, rereadMembers_append,
    rereadMembers_whenSome Search.reread_toJson, rereadMembers,
    rereadItems_map Method.reread_summaryJson]
  rfl

/-! ## What is read again -/

theorem PageQuery.WellFormed.reread {q : PageQuery} (h : q.WellFormed) : q.reread.WellFormed := by
  have hvalues : ∀ {vs : List Json}, (∀ v ∈ vs, v.settled = v) →
      ∀ v ∈ vs.map Json.reread, v.settled = v := by
    intro vs hvs v hv
    obtain ⟨w, hw, rfl⟩ := List.mem_map.1 hv
    rw [← reread_settled, hvs w hw]
  exact ⟨hvalues h.fieldEq, hvalues h.fieldLike, hvalues h.keyWordLikeFields⟩

theorem Column.wellFormed_of_mem_reread {cs : List Column} (h : ∀ c ∈ cs, c.WellFormed) :
    ∀ c ∈ cs.map Column.reread, c.WellFormed := by
  intro c hc
  obtain ⟨d, hd, rfl⟩ := List.mem_map.1 hc
  exact ExtraFor.reread (h d hd)

theorem Search.WellFormed.reread {s : Search} (h : s.WellFormed) : s.reread.WellFormed where
  fieldEq := Column.wellFormed_of_mem_reread h.fieldEq
  fieldLike := Column.wellFormed_of_mem_reread h.fieldLike
  keyWordLikeFields := Column.wellFormed_of_mem_reread h.keyWordLikeFields

theorem Entity.WellFormed.reread {e : Entity} (h : e.WellFormed) : e.reread.WellFormed := by
  refine ⟨?_, ?_, ?_, ?_, ?_, ExtraFor.reread h.extra⟩
  · intro m hm
    obtain ⟨n, hn, rfl⟩ := List.mem_map.1 hm
    exact ExtraFor.reread (h.methods n hn)
  · exact Column.wellFormed_of_mem_reread h.columns
  · exact Column.wellFormed_of_mem_reread h.pageColumns
  · intro q hq
    obtain ⟨p, hp, rfl⟩ := Option.map_eq_some_iff.1 hq
    exact (h.pageQuery p hp).reread
  · intro s hs
    obtain ⟨r, hr, rfl⟩ := Option.map_eq_some_iff.1 hs
    exact (h.search r hr).reread

namespace Cache

variable {t : Target} {es : List Entity}

theorem normalized_reread (h : Normalized t es) : Normalized t (es.map Entity.reread) := by
  refine ⟨?_, ?_, ?_⟩
  · intro e he
    obtain ⟨d, hd, rfl⟩ := List.mem_map.1 he
    exact (h.wellFormed d hd).reread
  · intro e he
    obtain ⟨d, hd, rfl⟩ := List.mem_map.1 he
    exact h.used d hd
  · intro e he
    obtain ⟨d, hd, rfl⟩ := List.mem_map.1 he
    exact Option.isSome_map.trans (h.search d hd)

theorem reread_value (t : Target) (es : List Entity) :
    (value t es).reread = value t (es.map Entity.reread) := by
  unfold value
  split
  next => rw [Entity.listToJson, Json.reread, rereadItems_map Entity.reread_toJson]; rfl
  next => rw [Json.reread, rereadItems_map Entity.reread_summaryJson]

/-- **A cache is not read at all, or it holds what was stored, with its numbers read again.** -/
theorem parse_content_cases (h : ∀ e ∈ es, e.WellFormed) :
    parse (content t es) = [] ∨
      parse (content t es) = (es.map Entity.reread).map (stored t) := by
  have hreread : ∀ e ∈ es.map Entity.reread, e.WellFormed := by
    intro e he
    obtain ⟨d, hd, rfl⟩ := List.mem_map.1 he
    exact (h d hd).reread
  rw [parse, content_eq, compact, String.toList_ofList, Comments.strip_render, Entity.parseList?]
  cases hread : readAs? (.list Entity.shape) (render (value t es)) with
  | none => exact .inl rfl
  | some v =>
    have hv : v = value t (es.map Entity.reread) :=
      (eq_reread_of_readAs? (keeps_value h) hread).trans (reread_value t es)
    rw [hv, Option.bind_some, listOfJson?_value hreread]
    exact .inr rfl

/-- Normalizing what the cache of a normalized list holds, without any assumption. -/
theorem normalize_read_cases {s : Store} {path : String} (h : Normalized t es)
    (hs : s.read? path = some (content t es)) :
    normalize t (read s path) = [] ∨
      normalize t (read s path) = (es.map Entity.reread).map (stored t) := by
  rw [read_eq hs]
  rcases parse_content_cases h.wellFormed with hparse | hparse
  · rw [hparse]
    exact .inl rfl
  · rw [hparse]
    exact .inr (normalized_stored (normalized_reread h)).normalize_eq_self

end Cache

end ClientBuild
