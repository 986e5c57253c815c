import ClientBuild.Proofs.Json.Record
import ClientBuild.Schema.Read
import ClientBuild.Schema.Write

/-!
# Entities and their JSON

Whatever was read as an entity is read again from its JSON (`Entity.ofJson?_toJson`), and its short
form from the JSON of the short form (`Entity.ofJson?_summaryJson`).  What makes this work is
`WellFormed`, which every reader establishes: extra members carry no modelled key and stand for
themselves.
-/

namespace ClientBuild

open Json

/-! ## Members that may be left out -/

theorem Json.get?_whenSome {α : Type} (key k : String) (f : α → Json) : ∀ o : Option α,
    Assoc.get? key (whenSome k f o) = if k = key then o.map f else none
  | none => by simp [whenSome]
  | some a => by simp [whenSome]

theorem Json.get?_whenAny {α : Type} (key k : String) (f : α → Json) : ∀ as : List α,
    Assoc.get? key (whenAny k f as) =
      if k = key ∧ as ≠ [] then some (.array (as.map f)) else none
  | [] => by simp [whenAny]
  | a :: as => by simp [whenAny]

theorem Json.keys_whenSome {α : Type} (k : String) (f : α → Json) : ∀ o : Option α,
    (Assoc.keys (whenSome k f o)).Sublist [k]
  | none => List.nil_sublist [k]
  | some _ => List.Sublist.refl [k]

theorem Json.keys_whenAny {α : Type} (k : String) (f : α → Json) : ∀ as : List α,
    (Assoc.keys (whenAny k f as)).Sublist [k]
  | [] => List.nil_sublist [k]
  | _ :: _ => List.Sublist.refl [k]

/-! ## Columns -/

namespace Column

/-- The modelled keys of a column. -/
def keys : List String := ["propertyName", "type", "source", "comment", "nullable"]

/-- A column that can have been read. -/
def WellFormed (c : Column) : Prop := ExtraFor keys c.extra

theorem wellFormed_of_ofJson? {v : Json} {c : Column} (h : ofJson? v = some c) : c.WellFormed := by
  simp only [ofJson?, Option.bind_eq_bind, Option.bind_eq_some_iff] at h
  obtain ⟨r, hr, _, _, _, _, _, _, _, _, _, _, h⟩ := h
  cases h
  exact Record.extraFor_of_open? hr

/-- The modelled members of a column. -/
def members (c : Column) : List (String × Json) :=
  [("propertyName", .string c.propertyName), ("type", .string c.type),
   ("source", .string c.source), ("comment", .string c.comment), ("nullable", .bool c.nullable)]

theorem toJson_eq (c : Column) : c.toJson = .object (c.members ++ c.extra) := rfl

theorem ofJson?_toJson {c : Column} (h : c.WellFormed) : ofJson? c.toJson = some c := by
  have hr : Record.open? keys c.toJson = some ⟨c.members, c.extra⟩ :=
    Record.ofMembers?_of_sublist c.members (List.Sublist.refl keys) (by decide) h
  simp only [ofJson?, Option.bind_eq_bind]
  rw [← keys, hr, Option.bind_some, Record.nullable_string rfl, Option.bind_some,
    Record.nullable_string rfl, Option.bind_some, Record.nullable_string rfl, Option.bind_some,
    Record.nullable_string rfl, Option.bind_some, Record.nullable_bool rfl, Option.bind_some]
  rfl

end Column

/-! ## Parameters -/

namespace Parameter

theorem typeOfJson?_whenSome (o : Option String) :
    typeOfJson? (.object (whenSome "type" .string o)) = some o := by
  have hr := Record.ofMembers?_of_sublist _ (keys_whenSome "type" Json.string o) (by decide)
    (extraFor_nil _)
  rw [List.append_nil] at hr
  simp only [typeOfJson?, Record.closed?, hr, Option.bind_eq_bind, Option.bind_some]
  apply Record.optional_string
  simp [Record.get?, get?_whenSome]

/-- The members of a parameter. -/
def members (p : Parameter) : List (String × Json) :=
  [("name", .string p.name), ("required", .bool p.required)] ++
    whenSome "description" .string p.description ++
    [("schema", .object (whenSome "type" .string p.type))]

theorem keys_members (p : Parameter) :
    (Assoc.keys p.members).Sublist ["name", "required", "description", "schema"] := by
  simp only [members, Assoc.keys_append]
  exact ((List.Sublist.refl _).append (keys_whenSome _ _ _)).append (List.Sublist.refl _)

theorem ofJson?_toJson (p : Parameter) : ofJson? p.toJson = some p := by
  have hr := Record.ofMembers?_of_sublist p.members p.keys_members (by decide) (extraFor_nil _)
  rw [List.append_nil] at hr
  have hdescription : Record.get? ⟨p.members, []⟩ "description" = p.description.map .string := by
    simp [members, Record.get?, Assoc.get?_append, get?_whenSome]
  have hschema : Record.get? ⟨p.members, []⟩ "schema" =
      some (.object (whenSome "type" .string p.type)) := by
    simp [members, Record.get?, Assoc.get?_append, get?_whenSome]
  simp only [ofJson?, toJson, Record.closed?, Option.bind_eq_bind]
  rw [← members, hr, Option.bind_some, Record.nullable_string rfl, Option.bind_some,
    Record.nullable_bool rfl, Option.bind_some, Record.optional_string hdescription,
    Option.bind_some, Record.nullable_some hschema Json.noConfusion, typeOfJson?_whenSome]
  rfl

end Parameter

/-! ## Methods -/

namespace Method

/-- The modelled keys of a method. -/
def keys : List String := ["path", "method", "name", "summary", "prefix", "tag", "dts"]

/-- A method that can have been read. -/
def WellFormed (m : Method) : Prop := ExtraFor keys m.extra

theorem wellFormed_of_ofJson? {v : Json} {m : Method} (h : ofJson? v = some m) : m.WellFormed := by
  simp only [ofJson?, Option.bind_eq_bind, Option.bind_eq_some_iff] at h
  obtain ⟨r, hr, _, _, _, _, _, _, _, _, _, _, _, _, _, _, h⟩ := h
  cases h
  exact Record.extraFor_of_open? hr

/-- The member that holds the parameters. -/
def parameterMembers (ps : List Parameter) : List (String × Json) :=
  if ps.isEmpty then []
  else [("dts", .object [("parameters", .array (ps.map Parameter.toJson))])]

theorem keys_parameterMembers : ∀ ps : List Parameter,
    (Assoc.keys (parameterMembers ps)).Sublist ["dts"]
  | [] => List.nil_sublist _
  | _ :: _ => List.Sublist.refl _

theorem get?_parameterMembers {key : String} (hk : key ≠ "dts") : ∀ ps : List Parameter,
    Assoc.get? key (parameterMembers ps) = none
  | [] => rfl
  | _ :: _ => if_neg hk.symm

theorem parametersOfJson?_array (ps : List Parameter) :
    parametersOfJson? (.object [("parameters", .array (ps.map Parameter.toJson))]) = some ps := by
  have hr := Record.ofMembers?_of_sublist [("parameters", .array (ps.map Parameter.toJson))]
    (List.Sublist.refl ["parameters"]) (by decide) (extraFor_nil _)
  rw [List.append_nil] at hr
  simp only [parametersOfJson?, Record.closed?, hr, Option.bind_eq_bind, Option.bind_some]
  exact Record.nullable_list rfl fun p _ => p.ofJson?_toJson

theorem nullable_parameterMembers {r : Record} : ∀ {ps : List Parameter},
    r.get? "dts" = Assoc.get? "dts" (parameterMembers ps) →
    r.nullable "dts" parametersOfJson? [] = some ps
  | [], h => Record.nullable_none h
  | p :: ps, h => by
      rw [Record.nullable_some h Json.noConfusion]
      exact parametersOfJson?_array (p :: ps)

/-- The modelled members of a method. -/
def members (m : Method) : List (String × Json) :=
  [("path", .string m.path), ("method", .string m.method)] ++
    whenSome "name" .string m.name ++
    whenSome "summary" .string m.summary ++
    whenSome "prefix" .string m.route ++
    whenSome "tag" .string m.tag ++
    parameterMembers m.parameters

theorem toJson_eq (m : Method) : m.toJson = .object (m.members ++ m.extra) := rfl

theorem keys_members (m : Method) : (Assoc.keys m.members).Sublist keys := by
  simp only [members, Assoc.keys_append]
  exact (((((List.Sublist.refl _).append (keys_whenSome _ _ _)).append
    (keys_whenSome _ _ _)).append (keys_whenSome _ _ _)).append
    (keys_whenSome _ _ _)).append (keys_parameterMembers _)

theorem ofJson?_toJson {m : Method} (h : m.WellFormed) : ofJson? m.toJson = some m := by
  have hr : Record.open? keys m.toJson = some ⟨m.members, m.extra⟩ :=
    Record.ofMembers?_of_sublist m.members m.keys_members (by decide) h
  have hget : ∀ key, Record.get? ⟨m.members, m.extra⟩ key = Assoc.get? key m.members :=
    fun _ => rfl
  have hname : Assoc.get? "name" m.members = m.name.map .string := by
    simp [members, Assoc.get?_append, get?_whenSome, get?_parameterMembers]
  have hsummary : Assoc.get? "summary" m.members = m.summary.map .string := by
    simp [members, Assoc.get?_append, get?_whenSome, get?_parameterMembers]
  have hroute : Assoc.get? "prefix" m.members = m.route.map .string := by
    simp [members, Assoc.get?_append, get?_whenSome, get?_parameterMembers]
  have htag : Assoc.get? "tag" m.members = m.tag.map .string := by
    simp [members, Assoc.get?_append, get?_whenSome, get?_parameterMembers]
  have hdts : Assoc.get? "dts" m.members =
      Assoc.get? "dts" (parameterMembers m.parameters) := by
    simp [members, Assoc.get?_append, get?_whenSome]
  simp only [ofJson?, Option.bind_eq_bind]
  rw [← keys, hr, Option.bind_some, Record.nullable_string rfl, Option.bind_some,
    Record.nullable_string rfl, Option.bind_some, Record.optional_string ((hget _).trans hname),
    Option.bind_some, Record.optional_string ((hget _).trans hsummary), Option.bind_some,
    Record.optional_string ((hget _).trans hroute), Option.bind_some,
    Record.optional_string ((hget _).trans htag), Option.bind_some,
    nullable_parameterMembers ((hget _).trans hdts)]
  rfl

end Method

/-! ## Sources of a page query, and search groups -/

theorem Json.asList_asAny {vs : List Json} (h : ∀ v ∈ vs, v.settled = v) :
    asList asAny (.array vs) = some vs := by
  have hmap : asList asAny (.array (vs.map id)) = some vs :=
    asList_map fun v hv => congrArg some (h v hv)
  rwa [List.map_id] at hmap

namespace PageQuery

/-- Sources that can have been read. -/
structure WellFormed (q : PageQuery) : Prop where
  fieldEq : ∀ v ∈ q.fieldEq, v.settled = v
  fieldLike : ∀ v ∈ q.fieldLike, v.settled = v
  keyWordLikeFields : ∀ v ∈ q.keyWordLikeFields, v.settled = v

theorem settled_of_nullable {r : Record} {key : String} {vs : List Json}
    (h : r.nullable key (asList asAny) [] = some vs) : ∀ v ∈ vs, v.settled = v := by
  intro v hv
  obtain ⟨_, _, w, _, hw⟩ := Record.exists_of_mem_nullable h hv
  cases hw
  exact settled_settled w

theorem wellFormed_of_ofJson? {v : Json} {q : PageQuery} (h : ofJson? v = some q) :
    q.WellFormed := by
  simp only [ofJson?, Option.bind_eq_bind, Option.bind_eq_some_iff] at h
  obtain ⟨r, _, _, heq, _, hlike, _, hkey, h⟩ := h
  cases h
  exact ⟨settled_of_nullable heq, settled_of_nullable hlike, settled_of_nullable hkey⟩

theorem ofJson?_toJson {q : PageQuery} (h : q.WellFormed) : ofJson? q.toJson = some q := by
  have hr := Record.ofMembers?_of_sublist
    [("fieldEq", .array q.fieldEq), ("fieldLike", .array q.fieldLike),
      ("keyWordLikeFields", .array q.keyWordLikeFields)]
    (List.Sublist.refl ["fieldEq", "fieldLike", "keyWordLikeFields"]) (by decide) (extraFor_nil _)
  rw [List.append_nil] at hr
  simp only [ofJson?, toJson, Record.closed?, Option.bind_eq_bind]
  rw [hr, Option.bind_some, Record.nullable_some rfl Json.noConfusion, asList_asAny h.fieldEq,
    Option.bind_some, Record.nullable_some rfl Json.noConfusion, asList_asAny h.fieldLike,
    Option.bind_some, Record.nullable_some rfl Json.noConfusion, asList_asAny h.keyWordLikeFields]
  rfl

end PageQuery

theorem Column.wellFormed_of_mem_nullable {r : Record} {key : String} {cs : List Column}
    (h : r.nullable key (asList Column.ofJson?) [] = some cs) : ∀ c ∈ cs, c.WellFormed := by
  intro c hc
  obtain ⟨_, _, w, _, hw⟩ := Record.exists_of_mem_nullable h hc
  exact wellFormed_of_ofJson? hw

namespace Search

/-- Search groups that can have been read. -/
structure WellFormed (s : Search) : Prop where
  fieldEq : ∀ c ∈ s.fieldEq, c.WellFormed
  fieldLike : ∀ c ∈ s.fieldLike, c.WellFormed
  keyWordLikeFields : ∀ c ∈ s.keyWordLikeFields, c.WellFormed

theorem wellFormed_of_ofJson? {v : Json} {s : Search} (h : ofJson? v = some s) :
    s.WellFormed := by
  simp only [ofJson?, Option.bind_eq_bind, Option.bind_eq_some_iff] at h
  obtain ⟨r, _, _, heq, _, hlike, _, hkey, h⟩ := h
  cases h
  exact ⟨Column.wellFormed_of_mem_nullable heq, Column.wellFormed_of_mem_nullable hlike,
    Column.wellFormed_of_mem_nullable hkey⟩

theorem ofJson?_toJson {s : Search} (h : s.WellFormed) : ofJson? s.toJson = some s := by
  have hr := Record.ofMembers?_of_sublist
    [("fieldEq", .array (s.fieldEq.map Column.toJson)),
      ("fieldLike", .array (s.fieldLike.map Column.toJson)),
      ("keyWordLikeFields", .array (s.keyWordLikeFields.map Column.toJson))]
    (List.Sublist.refl ["fieldEq", "fieldLike", "keyWordLikeFields"]) (by decide) (extraFor_nil _)
  rw [List.append_nil] at hr
  simp only [ofJson?, toJson, Record.closed?, Option.bind_eq_bind]
  rw [hr, Option.bind_some,
    Record.nullable_list rfl fun c hc => Column.ofJson?_toJson (h.fieldEq c hc), Option.bind_some,
    Record.nullable_list rfl fun c hc => Column.ofJson?_toJson (h.fieldLike c hc), Option.bind_some,
    Record.nullable_list rfl fun c hc => Column.ofJson?_toJson (h.keyWordLikeFields c hc)]
  rfl

end Search

/-! ## Entities -/

namespace Entity

/-- An entity that can have been read. -/
structure WellFormed (e : Entity) : Prop where
  methods : ∀ m ∈ e.methods, m.WellFormed
  columns : ∀ c ∈ e.columns, c.WellFormed
  pageColumns : ∀ c ∈ e.pageColumns, c.WellFormed
  pageQuery : ∀ q, e.pageQuery = some q → q.WellFormed
  search : ∀ s, e.search = some s → s.WellFormed
  extra : ExtraFor keys e.extra

/-- Every entity that is read is well-formed. -/
theorem wellFormed_of_ofJson? {v : Json} {e : Entity} (h : ofJson? v = some e) :
    e.WellFormed := by
  simp only [ofJson?, Option.bind_eq_bind, Option.bind_eq_some_iff] at h
  obtain ⟨r, hr, _, _, _, _, _, _, _, _, ms, hms, cs, hcs, ps, hps, q, hq, s, hs, h⟩ := h
  cases h
  refine ⟨?_, ?_, ?_, ?_, ?_, Record.extraFor_of_open? hr⟩
  · intro m hm
    obtain ⟨_, _, w, _, hw⟩ := Record.exists_of_mem_nullable hms hm
    exact Method.wellFormed_of_ofJson? hw
  · exact Column.wellFormed_of_mem_nullable hcs
  · exact Column.wellFormed_of_mem_nullable hps
  · rintro q rfl
    obtain ⟨w, _, hw⟩ := Record.exists_of_optional hq
    exact PageQuery.wellFormed_of_ofJson? hw
  · rintro s rfl
    obtain ⟨w, _, hw⟩ := Record.exists_of_optional hs
    exact Search.wellFormed_of_ofJson? hw

/-- The modelled members of an entity. -/
def members (e : Entity) : List (String × Json) :=
  [("prefix", .string e.route), ("name", .string e.name),
    ("namespace", .string e.namespaceHint)] ++
    whenSome "module" .string e.module ++
    [("api", .array (e.methods.map Method.toJson)),
     ("columns", .array (e.columns.map Column.toJson))] ++
    whenAny "pageColumns" Column.toJson e.pageColumns ++
    whenSome "pageQueryOp" PageQuery.toJson e.pageQuery ++
    whenSome "search" Search.toJson e.search

theorem toJson_eq (e : Entity) : e.toJson = .object (e.members ++ e.extra) := rfl

theorem keys_members (e : Entity) : (Assoc.keys e.members).Sublist keys := by
  simp only [members, Assoc.keys_append]
  exact (((((List.Sublist.refl _).append (keys_whenSome _ _ _)).append
    (List.Sublist.refl _)).append (keys_whenAny _ _ _)).append (keys_whenSome _ _ _)).append
    (keys_whenSome _ _ _)

theorem nullable_whenAny {r : Record} {key : String} {cs : List Column}
    (h : r.get? key = Assoc.get? key (whenAny key Column.toJson cs))
    (hcs : ∀ c ∈ cs, c.WellFormed) : r.nullable key (asList Column.ofJson?) [] = some cs := by
  cases cs with
  | nil => exact Record.nullable_none h
  | cons c cs =>
    rw [get?_whenAny, if_pos ⟨rfl, List.cons_ne_nil c cs⟩] at h
    exact Record.nullable_list h fun c hc => Column.ofJson?_toJson (hcs c hc)

/-- **A well-formed entity is read from its JSON.** -/
theorem ofJson?_toJson {e : Entity} (h : e.WellFormed) : ofJson? e.toJson = some e := by
  have hr : Record.open? keys e.toJson = some ⟨e.members, e.extra⟩ :=
    Record.ofMembers?_of_sublist e.members e.keys_members (by decide) h.extra
  have hget : ∀ key, Record.get? ⟨e.members, e.extra⟩ key = Assoc.get? key e.members :=
    fun _ => rfl
  have hmodule : Assoc.get? "module" e.members = e.module.map .string := by
    simp [members, Assoc.get?_append, get?_whenSome, get?_whenAny]
  have hapi : Assoc.get? "api" e.members = some (.array (e.methods.map Method.toJson)) := by
    simp [members, Assoc.get?_append, get?_whenSome]
  have hcolumns : Assoc.get? "columns" e.members =
      some (.array (e.columns.map Column.toJson)) := by
    simp [members, Assoc.get?_append, get?_whenSome]
  have hpage : Assoc.get? "pageColumns" e.members =
      Assoc.get? "pageColumns" (whenAny "pageColumns" Column.toJson e.pageColumns) := by
    simp [members, Assoc.get?_append, get?_whenSome]
  have hquery : Assoc.get? "pageQueryOp" e.members = e.pageQuery.map PageQuery.toJson := by
    simp [members, Assoc.get?_append, get?_whenSome, get?_whenAny]
  have hsearch : Assoc.get? "search" e.members = e.search.map Search.toJson := by
    simp [members, Assoc.get?_append, get?_whenSome, get?_whenAny]
  simp only [ofJson?, Option.bind_eq_bind]
  rw [hr, Option.bind_some, Record.nullable_string rfl, Option.bind_some,
    Record.nullable_string rfl, Option.bind_some, Record.nullable_string rfl, Option.bind_some,
    Record.optional_string ((hget _).trans hmodule), Option.bind_some,
    Record.nullable_list ((hget _).trans hapi) fun m hm => Method.ofJson?_toJson (h.methods m hm),
    Option.bind_some,
    Record.nullable_list ((hget _).trans hcolumns) fun c hc =>
      Column.ofJson?_toJson (h.columns c hc),
    Option.bind_some, nullable_whenAny ((hget _).trans hpage) h.pageColumns, Option.bind_some,
    Record.optional_map ((hget _).trans hquery) (fun _ => Json.noConfusion) fun q hq =>
      PageQuery.ofJson?_toJson (h.pageQuery q hq),
    Option.bind_some,
    Record.optional_map ((hget _).trans hsearch) (fun _ => Json.noConfusion) fun s hs =>
      Search.ofJson?_toJson (h.search s hs)]
  rfl

end Entity

/-! ## Short forms -/

/-- What the short form of a method keeps: name, verb and path. -/
def Method.short (m : Method) : Method := { path := m.path, method := m.method, name := m.name }

/-- What the short form of an entity keeps: route, name, short methods and search groups. -/
def Entity.short (e : Entity) : Entity :=
  { route := e.route, name := e.name, methods := e.methods.map Method.short, search := e.search }

namespace Method

/-- The members of the short form of a method. -/
def summaryMembers (m : Method) : List (String × Json) :=
  whenSome "name" .string m.name ++ [("method", .string m.method), ("path", .string m.path)]

theorem keys_summaryMembers (m : Method) :
    (Assoc.keys m.summaryMembers).Sublist ["name", "method", "path"] := by
  simp only [summaryMembers, Assoc.keys_append]
  exact (keys_whenSome _ _ _).append (List.Sublist.refl _)

theorem open?_summaryJson (m : Method) :
    Record.open? keys m.summaryJson = some ⟨m.summaryMembers, []⟩ := by
  have hsub : ∀ k ∈ ["name", "method", "path"], k ∈ keys := by decide
  -- the short form writes its members in another order than the full form
  have hr : Record.ofMembers? keys (m.summaryMembers ++ []) = some ⟨m.summaryMembers, []⟩ := by
    refine Record.ofMembers?_append ?_ ?_ (extraFor_nil keys)
    · intro p hp
      exact hsub p.1 (m.keys_summaryMembers.subset (List.mem_map_of_mem hp))
    · exact m.keys_summaryMembers.nodup (by decide)
  rw [List.append_nil] at hr
  exact hr

theorem ofJson?_summaryJson (m : Method) : ofJson? m.summaryJson = some m.short := by
  have hr := m.open?_summaryJson
  have hget : ∀ key, Record.get? ⟨m.summaryMembers, []⟩ key = Assoc.get? key m.summaryMembers :=
    fun _ => rfl
  have hpath : Assoc.get? "path" m.summaryMembers = some (.string m.path) := by
    simp [summaryMembers, Assoc.get?_append, get?_whenSome]
  have hmethod : Assoc.get? "method" m.summaryMembers = some (.string m.method) := by
    simp [summaryMembers, Assoc.get?_append, get?_whenSome]
  have hname : Assoc.get? "name" m.summaryMembers = m.name.map .string := by
    simp [summaryMembers, Assoc.get?_append, get?_whenSome]
  have hother : ∀ key ∈ ["summary", "prefix", "tag", "dts"],
      Assoc.get? key m.summaryMembers = none := by
    simp [summaryMembers, Assoc.get?_append, get?_whenSome]
  simp only [ofJson?, Option.bind_eq_bind]
  rw [← keys, hr, Option.bind_some, Record.nullable_string ((hget _).trans hpath),
    Option.bind_some, Record.nullable_string ((hget _).trans hmethod), Option.bind_some,
    Record.optional_string ((hget _).trans hname), Option.bind_some,
    Record.optional_none ((hget _).trans (hother _ (by decide))), Option.bind_some,
    Record.optional_none ((hget _).trans (hother _ (by decide))), Option.bind_some,
    Record.optional_none ((hget _).trans (hother _ (by decide))), Option.bind_some,
    Record.nullable_none ((hget _).trans (hother _ (by decide)))]
  rfl

end Method

namespace Entity

/-- The members of the short form of an entity. -/
def summaryMembers (e : Entity) : List (String × Json) :=
  [("prefix", .string e.route), ("name", .string e.name),
    ("api", .array (e.methods.map Method.summaryJson))] ++
    whenSome "search" Search.toJson e.search

theorem keys_summaryMembers (e : Entity) : (Assoc.keys e.summaryMembers).Sublist keys := by
  have hs : (Assoc.keys e.summaryMembers).Sublist (["prefix", "name", "api"] ++ ["search"]) := by
    simp only [summaryMembers, Assoc.keys_append]
    exact (List.Sublist.refl _).append (keys_whenSome _ _ _)
  exact hs.trans (by decide)

/-- **The short form of an entity is read from its JSON.** -/
theorem ofJson?_summaryJson {e : Entity} (h : ∀ s, e.search = some s → s.WellFormed) :
    ofJson? e.summaryJson = some e.short := by
  have hr := Record.ofMembers?_of_sublist e.summaryMembers e.keys_summaryMembers (by decide)
    (extraFor_nil keys)
  rw [List.append_nil] at hr
  replace hr : Record.open? keys e.summaryJson = some ⟨e.summaryMembers, []⟩ := hr
  have hget : ∀ key, Record.get? ⟨e.summaryMembers, []⟩ key = Assoc.get? key e.summaryMembers :=
    fun _ => rfl
  have hsearch : Assoc.get? "search" e.summaryMembers = e.search.map Search.toJson := by
    simp [summaryMembers, get?_whenSome]
  have hother : ∀ key ∈ ["namespace", "module", "columns", "pageColumns", "pageQueryOp"],
      Assoc.get? key e.summaryMembers = none := by
    simp [summaryMembers, get?_whenSome]
  have hapi : asList Method.ofJson? (.array (e.methods.map Method.summaryJson)) =
      some (e.methods.map Method.short) := by
    have hmap : (e.methods.map Method.short).map (fun m => m.summaryJson) =
        e.methods.map Method.summaryJson := by
      rw [List.map_map]
      rfl
    rw [← hmap]
    refine asList_map fun m hm => ?_
    obtain ⟨m, _, rfl⟩ := List.mem_map.1 hm
    exact m.ofJson?_summaryJson
  simp only [ofJson?, Option.bind_eq_bind]
  rw [hr, Option.bind_some, Record.nullable_string rfl, Option.bind_some,
    Record.nullable_string rfl, Option.bind_some,
    Record.nullable_none ((hget _).trans (hother _ (by decide))), Option.bind_some,
    Record.optional_none ((hget _).trans (hother _ (by decide))), Option.bind_some,
    Record.nullable_some rfl Json.noConfusion, hapi, Option.bind_some,
    Record.nullable_none ((hget _).trans (hother _ (by decide))), Option.bind_some,
    Record.nullable_none ((hget _).trans (hother _ (by decide))), Option.bind_some,
    Record.optional_none ((hget _).trans (hother _ (by decide))), Option.bind_some,
    Record.optional_map ((hget _).trans hsearch) (fun _ => Json.noConfusion) fun s hs =>
      Search.ofJson?_toJson (h s hs)]
  rfl

end Entity

end ClientBuild
