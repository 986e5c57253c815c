import ClientBuild.Proofs.Schema.Codec
import ClientBuild.Schema.Response

/-!
# Entities whose JSON reads back

The shape by which entities are read keeps all that is written for an entity
(`Entity.keeps_toJson`).  An entity that was read from a value that reads back is itself written as
one, at the same depth (`Entity.readsBack_of_ofJson?`); deriving the search groups goes one level
deeper.
-/

namespace ClientBuild

open Json

/-! ## Members that may be left out -/

theorem Json.forall_mem_whenSome {α : Type} {key : String} {f : α → Json}
    {P : String × Json → Prop} : ∀ {o : Option α},
    (∀ m ∈ whenSome key f o, P m) ↔ ∀ a, o = some a → P (key, f a)
  | none => by simp [whenSome]
  | some a => by simp [whenSome]

theorem Json.forall_mem_whenAny {α : Type} {key : String} {f : α → Json}
    {P : String × Json → Prop} : ∀ {as : List α},
    (∀ m ∈ whenAny key f as, P m) ↔ (as ≠ [] → P (key, .array (as.map f)))
  | [] => by simp [whenAny]
  | a :: as => by simp [whenAny]

theorem Method.forall_mem_parameterMembers {P : String × Json → Prop} : ∀ {ps : List Parameter},
    (∀ m ∈ parameterMembers ps, P m) ↔
      (ps ≠ [] → P ("dts", .object [("parameters", .array (ps.map Parameter.toJson))]))
  | [] => by simp [parameterMembers]
  | p :: ps => by simp [parameterMembers]

/-! ## Shapes -/

/-- An open shape keeps an object if its fields keep the members that they stand for. -/
theorem Shape.keeps_open {fields : List (String × Shape)} {ms : List (String × Json)}
    (h : ∀ m ∈ ms, ∀ s, Assoc.get? m.1 fields = some s → s.Keeps m.2) :
    (Shape.open fields).Keeps (.object ms) := by
  refine Shape.keeps_object.2 fun m hm => ⟨_, rfl, ?_⟩
  cases hs : Assoc.get? m.1 fields with
  | none => exact Shape.keeps_whole m.2
  | some s => exact h m hm s hs

theorem Parameter.keeps_toJson (p : Parameter) : Parameter.shape.Keeps p.toJson := by
  refine Shape.keeps_object.2 ?_
  simp only [List.forall_mem_append, List.forall_mem_cons, forall_mem_whenSome]
  refine ⟨⟨⟨⟨.whole, rfl, trivial⟩, ⟨.whole, rfl, trivial⟩, ?_⟩, ?_⟩, ⟨_, rfl, ?_⟩, ?_⟩
  · exact fun m hm => absurd hm List.not_mem_nil
  · exact fun d _ => ⟨.whole, rfl, trivial⟩
  · refine Shape.keeps_object.2 ?_
    simp only [forall_mem_whenSome]
    exact fun t _ => ⟨.whole, rfl, trivial⟩
  · exact fun m hm => absurd hm List.not_mem_nil

theorem Method.keeps_toJson {m : Method} (h : m.WellFormed) : Method.shape.Keeps m.toJson := by
  have hparameters : (Shape.closed [("parameters", .list Parameter.shape)]).Keeps
      (.object [("parameters", .array (m.parameters.map Parameter.toJson))]) := by
    refine Shape.keeps_object.2 fun x hx => ⟨.list Parameter.shape, ?_⟩
    cases List.mem_singleton.1 hx
    refine ⟨rfl, Shape.keeps_list.2 fun v hv => ?_⟩
    obtain ⟨p, _, rfl⟩ := List.mem_map.1 hv
    exact p.keeps_toJson
  rw [toJson_eq]
  refine Shape.keeps_open (List.forall_mem_append.2 ⟨?_, ?_⟩)
  · simp only [members, List.forall_mem_append, List.forall_mem_cons, forall_mem_whenSome,
      forall_mem_parameterMembers]
    simpa using fun _ => hparameters
  · intro x hx s hs
    have hdts : x.1 ≠ "dts" := fun he => h.unmodelled x hx (he ▸ by decide)
    rw [Assoc.get?_cons, if_neg hdts.symm] at hs
    cases hs

theorem PageQuery.keeps_toJson (q : PageQuery) : Search.shape.Keeps q.toJson := by
  refine Shape.keeps_object.2 ?_
  simp only [List.forall_mem_cons]
  refine ⟨⟨.whole, rfl, Shape.keeps_whole _⟩, ⟨.whole, rfl, Shape.keeps_whole _⟩,
    ⟨.whole, rfl, Shape.keeps_whole _⟩, ?_⟩
  exact fun m hm => absurd hm List.not_mem_nil

theorem Search.keeps_toJson (s : Search) : Search.shape.Keeps s.toJson := by
  refine Shape.keeps_object.2 ?_
  simp only [List.forall_mem_cons]
  refine ⟨⟨.whole, rfl, Shape.keeps_whole _⟩, ⟨.whole, rfl, Shape.keeps_whole _⟩,
    ⟨.whole, rfl, Shape.keeps_whole _⟩, ?_⟩
  exact fun m hm => absurd hm List.not_mem_nil

/-- Reading an entity passes over nothing that is written for one. -/
theorem Entity.keeps_toJson {e : Entity} (h : e.WellFormed) : Entity.shape.Keeps e.toJson := by
  have hapi : (Shape.list Method.shape).Keeps (.array (e.methods.map Method.toJson)) := by
    refine Shape.keeps_list.2 fun v hv => ?_
    obtain ⟨m, hm, rfl⟩ := List.mem_map.1 hv
    exact Method.keeps_toJson (h.methods m hm)
  rw [toJson_eq]
  refine Shape.keeps_open (List.forall_mem_append.2 ⟨?_, ?_⟩)
  · simp only [members, List.forall_mem_append, List.forall_mem_cons, forall_mem_whenSome,
      forall_mem_whenAny]
    simpa using ⟨⟨hapi, fun q _ => q.keeps_toJson⟩, fun s _ => s.keeps_toJson⟩
  · intro x hx s hs
    have hx := h.extra.unmodelled x hx
    have hapi : x.1 ≠ "api" := fun he => hx (he ▸ by decide)
    have hquery : x.1 ≠ "pageQueryOp" := fun he => hx (he ▸ by decide)
    have hsearch : x.1 ≠ "search" := fun he => hx (he ▸ by decide)
    rw [Assoc.get?_cons, if_neg hapi.symm, Assoc.get?_cons, if_neg hquery.symm, Assoc.get?_cons,
      if_neg hsearch.symm] at hs
    cases hs

theorem Method.keeps_summaryJson (m : Method) : Method.shape.Keeps m.summaryJson := by
  refine Shape.keeps_open ?_
  simp only [List.forall_mem_append, List.forall_mem_cons, forall_mem_whenSome]
  simp

theorem Entity.keeps_summaryJson (e : Entity) : Entity.shape.Keeps e.summaryJson := by
  have hapi : (Shape.list Method.shape).Keeps (.array (e.methods.map Method.summaryJson)) := by
    refine Shape.keeps_list.2 fun v hv => ?_
    obtain ⟨m, _, rfl⟩ := List.mem_map.1 hv
    exact m.keeps_summaryJson
  refine Shape.keeps_open ?_
  simp only [List.forall_mem_append, List.forall_mem_cons, forall_mem_whenSome]
  simpa using ⟨hapi, fun s _ => s.keeps_toJson⟩

/-! ## What is written for a record reads back -/

theorem Column.readsBack_toJson {room : Nat} {c : Column} :
    c.toJson.ReadsBack (room + 1) ↔ ∀ m ∈ c.extra, m.2.ReadsBack room := by
  rw [toJson_eq, readsBack_object, List.forall_mem_append]
  simp [members]

theorem Parameter.readsBack_toJson (room : Nat) (p : Parameter) :
    p.toJson.ReadsBack (room + 2) := by
  rw [toJson, readsBack_object]
  simp only [List.forall_mem_append, List.forall_mem_cons, forall_mem_whenSome, readsBack_object]
  simp

theorem Method.readsBack_toJson {room : Nat} {m : Method} :
    m.toJson.ReadsBack (room + 5) ↔ ∀ x ∈ m.extra, x.2.ReadsBack (room + 4) := by
  have hparameters : (Json.object
      [("parameters", .array (m.parameters.map Parameter.toJson))]).ReadsBack (room + 4) := by
    simp only [readsBack_object, List.forall_mem_cons, readsBack_array, List.forall_mem_map]
    exact ⟨fun p _ => p.readsBack_toJson room, fun m hm => absurd hm List.not_mem_nil⟩
  rw [toJson_eq, readsBack_object, List.forall_mem_append]
  refine and_iff_right ?_
  simp only [members, List.forall_mem_append, List.forall_mem_cons, forall_mem_whenSome,
    forall_mem_parameterMembers]
  simpa using fun _ => hparameters

theorem PageQuery.readsBack_toJson {room : Nat} {q : PageQuery} :
    q.toJson.ReadsBack (room + 2) ↔
      (∀ v ∈ q.fieldEq, v.ReadsBack room) ∧ (∀ v ∈ q.fieldLike, v.ReadsBack room) ∧
        ∀ v ∈ q.keyWordLikeFields, v.ReadsBack room := by
  simp [toJson, readsBack_object, readsBack_array]

theorem Search.readsBack_toJson {room : Nat} {s : Search} :
    s.toJson.ReadsBack (room + 2) ↔
      (∀ c ∈ s.fieldEq, c.toJson.ReadsBack room) ∧ (∀ c ∈ s.fieldLike, c.toJson.ReadsBack room) ∧
        ∀ c ∈ s.keyWordLikeFields, c.toJson.ReadsBack room := by
  simp [toJson, readsBack_object, readsBack_array]

namespace Entity

/-- An entity that is written as a value that reads back, at most `room + 7` deep. -/
structure WritesBack (room : Nat) (e : Entity) : Prop where
  methods : ∀ m ∈ e.methods, m.toJson.ReadsBack (room + 5)
  columns : ∀ c ∈ e.columns, c.toJson.ReadsBack (room + 5)
  pageColumns : ∀ c ∈ e.pageColumns, c.toJson.ReadsBack (room + 5)
  pageQuery : ∀ q, e.pageQuery = some q → q.toJson.ReadsBack (room + 6)
  search : ∀ s, e.search = some s → s.toJson.ReadsBack (room + 6)
  extra : ∀ x ∈ e.extra, x.2.ReadsBack (room + 6)

theorem WritesBack.readsBack_toJson {room : Nat} {e : Entity} (h : e.WritesBack room) :
    e.toJson.ReadsBack (room + 7) := by
  rw [toJson_eq, readsBack_object]
  simp only [members, List.forall_mem_append, List.forall_mem_cons, forall_mem_whenSome,
    forall_mem_whenAny, readsBack_array, List.forall_mem_map]
  simpa using ⟨⟨⟨⟨⟨h.methods, h.columns⟩, fun _ => h.pageColumns⟩, h.pageQuery⟩, h.search⟩,
    fun k v hx => h.extra (k, v) hx⟩

theorem WritesBack.readsBack_summaryJson {room : Nat} {e : Entity} (h : e.WritesBack room) :
    e.summaryJson.ReadsBack (room + 7) := by
  have hmethod : ∀ m ∈ e.methods, m.summaryJson.ReadsBack (room + 5) := by
    intro m _
    rw [Method.summaryJson, readsBack_object]
    simp only [List.forall_mem_append, List.forall_mem_cons, forall_mem_whenSome]
    simp
  rw [summaryJson, readsBack_object]
  simp only [List.forall_mem_append, List.forall_mem_cons, forall_mem_whenSome, readsBack_array,
    List.forall_mem_map]
  simpa using ⟨hmethod, h.search⟩

end Entity

/-! ## What was read from a value that reads back -/

theorem Column.readsBack_of_ofJson? {room : Nat} {v : Json} {c : Column}
    (hv : v.ReadsBack (room + 1)) (h : ofJson? v = some c) : c.toJson.ReadsBack (room + 1) := by
  simp only [ofJson?, Option.bind_eq_bind, Option.bind_eq_some_iff] at h
  obtain ⟨r, hr, _, _, _, _, _, _, _, _, _, _, h⟩ := h
  cases h
  exact readsBack_toJson.2 (Record.readsBack_of_open? hv hr).2

theorem Column.readsBack_of_mem_nullable {room : Nat} {r : Record} {key : String}
    {cs : List Column} (hr : ∀ m ∈ r.known, m.2.ReadsBack (room + 2))
    (h : r.nullable key (asList ofJson?) [] = some cs) :
    ∀ c ∈ cs, c.toJson.ReadsBack (room + 1) := by
  intro c hc
  obtain ⟨w, hw, hf⟩ := Record.readsBack_of_mem_nullable hr h hc
  exact readsBack_of_ofJson? hw hf

theorem Method.readsBack_of_ofJson? {room : Nat} {v : Json} {m : Method}
    (hv : v.ReadsBack (room + 5)) (h : ofJson? v = some m) : m.toJson.ReadsBack (room + 5) := by
  simp only [ofJson?, Option.bind_eq_bind, Option.bind_eq_some_iff] at h
  obtain ⟨r, hr, _, _, _, _, _, _, _, _, _, _, _, _, _, _, h⟩ := h
  cases h
  exact readsBack_toJson.2 (Record.readsBack_of_open? hv hr).2

theorem PageQuery.readsBack_of_ofJson? {room : Nat} {v : Json} {q : PageQuery}
    (hv : v.ReadsBack (room + 2)) (h : ofJson? v = some q) : q.toJson.ReadsBack (room + 2) := by
  simp only [ofJson?, Option.bind_eq_bind, Option.bind_eq_some_iff] at h
  obtain ⟨r, hr, _, heq, _, hlike, _, hkey, h⟩ := h
  cases h
  have hr := Record.readsBack_of_closed? hv hr
  have hvalues : ∀ {key vs}, r.nullable key (asList asAny) [] = some vs →
      ∀ v ∈ vs, v.ReadsBack room := by
    intro key vs h v hv
    obtain ⟨w, hw, hf⟩ := Record.readsBack_of_mem_nullable hr h hv
    cases hf
    exact hw.settled
  exact readsBack_toJson.2 ⟨hvalues heq, hvalues hlike, hvalues hkey⟩

theorem Search.readsBack_of_ofJson? {room : Nat} {v : Json} {s : Search}
    (hv : v.ReadsBack (room + 3)) (h : ofJson? v = some s) : s.toJson.ReadsBack (room + 3) := by
  simp only [ofJson?, Option.bind_eq_bind, Option.bind_eq_some_iff] at h
  obtain ⟨r, hr, _, heq, _, hlike, _, hkey, h⟩ := h
  cases h
  have hr := Record.readsBack_of_closed? hv hr
  exact readsBack_toJson.2 ⟨Column.readsBack_of_mem_nullable hr heq,
    Column.readsBack_of_mem_nullable hr hlike, Column.readsBack_of_mem_nullable hr hkey⟩

namespace Entity

/-- An entity read from a value that reads back is written as one. -/
theorem writesBack_of_ofJson? {room : Nat} {v : Json} {e : Entity} (hv : v.ReadsBack (room + 7))
    (h : ofJson? v = some e) : e.WritesBack room := by
  simp only [ofJson?, Option.bind_eq_bind, Option.bind_eq_some_iff] at h
  obtain ⟨r, hr, _, _, _, _, _, _, _, _, ms, hms, cs, hcs, ps, hps, q, hq, s, hs, h⟩ := h
  cases h
  obtain ⟨hknown, hextra⟩ := Record.readsBack_of_open? hv hr
  refine ⟨?_, ?_, ?_, ?_, ?_, hextra⟩
  · intro m hm
    obtain ⟨w, hw, hf⟩ := Record.readsBack_of_mem_nullable hknown hms hm
    exact Method.readsBack_of_ofJson? hw hf
  · exact Column.readsBack_of_mem_nullable hknown hcs
  · exact Column.readsBack_of_mem_nullable hknown hps
  · rintro q rfl
    obtain ⟨w, hget, hw⟩ := Record.exists_of_optional hq
    exact PageQuery.readsBack_of_ofJson? (Record.readsBack_of_get? hknown hget) hw
  · rintro s rfl
    obtain ⟨w, hget, hw⟩ := Record.exists_of_optional hs
    exact Search.readsBack_of_ofJson? (Record.readsBack_of_get? hknown hget) hw

/-! ## Search groups of entities -/

theorem mem_of_columnOf? {e : Entity} {source : String} {c : Column}
    (h : e.columnOf? source = some c) : c ∈ e.allColumns :=
  List.mem_of_find?_eq_some h

theorem mem_of_mem_findColumns {e : Entity} {sources : List Json} {c : Column}
    (h : c ∈ e.findColumns sources) : c ∈ e.allColumns := by
  obtain ⟨v, _, hv⟩ := List.mem_filterMap.1 h
  obtain ⟨s, _, hs⟩ := Option.bind_eq_some_iff.1 hv
  exact mem_of_columnOf? hs

theorem WellFormed.column {e : Entity} (h : e.WellFormed) : ∀ c ∈ e.allColumns, c.WellFormed := by
  intro c hc
  rcases List.mem_append.1 hc with hc | hc
  · exact h.columns c hc
  · exact h.pageColumns c hc

theorem WritesBack.column {room : Nat} {e : Entity} (h : e.WritesBack room) :
    ∀ c ∈ e.allColumns, c.toJson.ReadsBack (room + 5) := by
  intro c hc
  rcases List.mem_append.1 hc with hc | hc
  · exact h.columns c hc
  · exact h.pageColumns c hc

theorem fillSearch_of_some {e : Entity} {s : Search} (h : e.search = some s) :
    e.fillSearch = e := by
  rw [fillSearch, h]

theorem fillSearch_of_none {e : Entity} (h : e.search = none) :
    e.fillSearch = { e with search := some e.derivedSearch } := by
  rw [fillSearch, h]

theorem fillSearch_isSome (e : Entity) : e.fillSearch.search.isSome = true := by
  cases h : e.search with
  | none => rw [fillSearch_of_none h]; rfl
  | some s => rw [fillSearch_of_some h, h]; rfl

@[simp] theorem fillSearch_route (e : Entity) : e.fillSearch.route = e.route := by
  unfold fillSearch
  split
  · rfl
  · rfl

theorem WellFormed.fillSearch {e : Entity} (h : e.WellFormed) : e.fillSearch.WellFormed := by
  cases hs : e.search with
  | some s => rwa [fillSearch_of_some hs]
  | none =>
    rw [fillSearch_of_none hs]
    refine ⟨h.methods, h.columns, h.pageColumns, h.pageQuery, ?_, h.extra⟩
    rintro s ⟨⟩
    exact ⟨fun c hc => h.column c (mem_of_mem_findColumns hc),
      fun c hc => h.column c (mem_of_mem_findColumns hc),
      fun c hc => h.column c (mem_of_mem_findColumns hc)⟩

/-- Deriving the search groups puts columns one level deeper. -/
theorem WritesBack.fillSearch {room : Nat} {e : Entity} (h : e.WritesBack room) :
    e.fillSearch.WritesBack (room + 1) := by
  have hmono : e.WritesBack (room + 1) :=
    ⟨fun m hm => (h.methods m hm).mono (by omega), fun c hc => (h.columns c hc).mono (by omega),
      fun c hc => (h.pageColumns c hc).mono (by omega),
      fun q hq => (h.pageQuery q hq).mono (by omega), fun s hs => (h.search s hs).mono (by omega),
      fun x hx => (h.extra x hx).mono (by omega)⟩
  cases hs : e.search with
  | some s => rwa [fillSearch_of_some hs]
  | none =>
    rw [fillSearch_of_none hs]
    refine ⟨hmono.methods, hmono.columns, hmono.pageColumns, hmono.pageQuery, ?_, hmono.extra⟩
    rintro s ⟨⟩
    refine Search.readsBack_toJson.2 ⟨?_, ?_, ?_⟩
    · exact fun c hc => h.column c (mem_of_mem_findColumns hc)
    · exact fun c hc => h.column c (mem_of_mem_findColumns hc)
    · exact fun c hc => h.column c (mem_of_mem_findColumns hc)

end Entity

/-! ## Answers of the backend -/

theorem exists_of_mem_entitiesOfPayload {data : Json} {e : Entity}
    (h : e ∈ entitiesOfPayload data) :
    ∃ g ∈ payloadGroups data, ∃ v ∈ groupItems g, Entity.ofJson? v = some e := by
  obtain ⟨v, hv, he⟩ := List.mem_filterMap.1 h
  obtain ⟨g, hg, hv⟩ := List.mem_flatMap.1 hv
  exact ⟨g, hg, v, hv, he⟩

theorem Json.readsBack_of_mem_payloadGroups {room : Nat} {data g : Json}
    (h : data.ReadsBack (room + 1)) (hg : g ∈ payloadGroups data) : g.ReadsBack room := by
  cases data with
  | object ms =>
    obtain ⟨m, hm, rfl⟩ := List.mem_map.1 hg
    exact readsBack_object.1 h m hm
  | array items => exact readsBack_array.1 h g hg
  | _ => exact absurd hg List.not_mem_nil

theorem Json.readsBack_of_mem_groupItems {room : Nat} {g v : Json}
    (h : g.ReadsBack (room + 1)) (hv : v ∈ groupItems g) : v.ReadsBack (room + 1) := by
  cases g with
  | array items => exact (readsBack_array.1 h v hv).mono (Nat.le_succ room)
  | null => exact absurd hv List.not_mem_nil
  | _ => exact List.mem_singleton.1 hv ▸ h

/-- The entities of an answer are those of its data. -/
theorem exists_of_schemaOfAnswer? {answer : Json} {es : List Entity}
    (h : schemaOfAnswer? answer = some es) : es = [] ∨ ∃ r w, es = entitiesOfPayload w.settled ∧
      Record.closed? ["code", "data", "message"] answer = some r ∧ r.get? "data" = some w := by
  simp only [schemaOfAnswer?, Option.bind_eq_bind, Option.bind_eq_some_iff] at h
  obtain ⟨response, hresponse, h⟩ := h
  split at h
  next =>
    cases h
    cases hd : response.data with
    | none => exact .inl rfl
    | some data =>
      simp only [Response.ofJson?, Option.bind_eq_bind, Option.bind_eq_some_iff] at hresponse
      obtain ⟨r, hr, _, _, d, hdata, _, _, hresponse⟩ := hresponse
      cases hresponse
      cases hd
      obtain ⟨w, hw, hf⟩ := Record.exists_of_optional hdata
      cases hf
      exact .inr ⟨r, w, rfl, hr, hw⟩
  next => cases h

theorem wellFormed_of_schemaOfAnswer? {answer : Json} {es : List Entity}
    (h : schemaOfAnswer? answer = some es) : ∀ e ∈ es, e.WellFormed := by
  intro e he
  rcases exists_of_schemaOfAnswer? h with rfl | ⟨_, w, rfl, _, _⟩
  · exact absurd he List.not_mem_nil
  · obtain ⟨_, _, v, _, hv⟩ := exists_of_mem_entitiesOfPayload he
    exact Entity.wellFormed_of_ofJson? hv

/-- The entities of an answer that reads back are written as values that read back. -/
theorem writesBack_of_schemaOfAnswer? {room : Nat} {answer : Json} {es : List Entity}
    (hr : answer.ReadsBack (room + 9)) (h : schemaOfAnswer? answer = some es) :
    ∀ e ∈ es, e.WritesBack room := by
  intro e he
  rcases exists_of_schemaOfAnswer? h with rfl | ⟨r, w, rfl, hclosed, hget⟩
  · exact absurd he List.not_mem_nil
  · obtain ⟨g, hg, v, hv, he⟩ := exists_of_mem_entitiesOfPayload he
    have hw : w.settled.ReadsBack (room + 8) :=
      (Record.readsBack_of_get? (Record.readsBack_of_closed? hr hclosed) hget).settled
    have hg := readsBack_of_mem_payloadGroups hw hg
    exact Entity.writesBack_of_ofJson? (readsBack_of_mem_groupItems hg hv) he

end ClientBuild
