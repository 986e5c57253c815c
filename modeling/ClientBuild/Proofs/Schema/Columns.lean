import ClientBuild.Proofs.Schema.ReadBack
import ClientBuild.Proofs.Text.Distinct

/-!
# Columns and what names them

The interface of an entity and its search groups are made by two searches over the same columns: one keeps
the first column of every source, the other looks every source up.  Both pick the first column of a source
(`filter_mergedColumns`, `resolves_findColumns`), so a search group names no column that the interface lacks.
-/

namespace ClientBuild.Entity

variable {cs : List Column} {source : String} {c : Column}

/-! ## The first column of a source -/

/-- Of the columns with the source, `c` is the first one. -/
def IsFirst (cs : List Column) (source : String) (c : Column) : Prop :=
  ∃ before after, cs = before ++ c :: after ∧ c.source = source ∧ ∀ d ∈ before, d.source ≠ source

theorem find?_source_eq_some_iff : cs.find? (·.source == source) = some c ↔ IsFirst cs source c := by
  rw [List.find?_eq_some_iff_append]
  constructor
  · rintro ⟨hc, before, after, rfl, hbefore⟩
    exact ⟨before, after, rfl, by simpa using hc, by simpa using hbefore⟩
  · rintro ⟨before, after, rfl, hc, hbefore⟩
    exact ⟨by simpa using hc, before, after, rfl, by simpa using hbefore⟩

/-- Columns are left out as their sources are. -/
theorem map_source_firstPerSource (seen : List String) (cs : List Column) :
    (firstPerSource seen cs).map Column.source = Text.dedupFrom seen (cs.map Column.source) := by
  induction cs generalizing seen with
  | nil => rfl
  | cons c cs ih =>
    rw [firstPerSource, List.map_cons, Text.dedupFrom]
    split
    next => exact ih seen
    next => rw [List.map_cons, ih]

theorem firstPerSource_sublist (seen : List String) (cs : List Column) :
    (firstPerSource seen cs).Sublist cs := by
  induction cs generalizing seen with
  | nil => exact List.Sublist.refl []
  | cons c cs ih =>
    rw [firstPerSource]
    split
    next => exact (ih seen).cons c
    next => exact (ih (c.source :: seen)).cons_cons c

/-- Of a source that was not seen before, the first column is kept and no other. -/
theorem filter_firstPerSource (seen : List String) (cs : List Column) (source : String) :
    (firstPerSource seen cs).filter (·.source == source) =
      if source ∈ seen then [] else (cs.find? (·.source == source)).toList := by
  induction cs generalizing seen with
  | nil => simp [firstPerSource]
  | cons c cs ih =>
    rw [firstPerSource]
    by_cases hc : c.source = source
    · subst hc
      by_cases hseen : c.source ∈ seen
      · simp [hseen, ih]
      · simp [hseen, ih]
    · by_cases hseen : c.source ∈ seen
      · simp [hseen, hc, ih]
      · simp [hseen, hc, ih, Ne.symm hc]

/-- Of every source, the first column is merged and no other. -/
theorem filter_mergedColumns (e : Entity) (source : String) :
    e.mergedColumns.filter (·.source == source) = (e.columnOf? source).toList := by
  rw [mergedColumns, filter_firstPerSource, if_neg List.not_mem_nil, columnOf?]

theorem mem_mergedColumns_iff (e : Entity) :
    c ∈ e.mergedColumns ↔ e.columnOf? c.source = some c := by
  have hfilter : c ∈ e.mergedColumns ↔ c ∈ e.mergedColumns.filter (·.source == c.source) := by
    rw [List.mem_filter, beq_self_eq_true, eq_self, and_true]
  rw [hfilter, filter_mergedColumns, Option.mem_toList]

theorem source_of_columnOf? {e : Entity} (h : e.columnOf? source = some c) : c.source = source := by
  obtain ⟨_, _, _, hc, _⟩ := find?_source_eq_some_iff.1 h
  exact hc

/-- A source is merged with the column that it is looked up as. -/
theorem mem_mergedColumns_and_source (e : Entity) :
    (c ∈ e.mergedColumns ∧ c.source = source) ↔ e.columnOf? source = some c := by
  constructor
  · rintro ⟨hc, rfl⟩
    exact (mem_mergedColumns_iff e).1 hc
  · intro hc
    obtain rfl := source_of_columnOf? hc
    exact ⟨(mem_mergedColumns_iff e).2 hc, rfl⟩

/-! ## What sources name -/

/-- What the entries of a list name among columns: a string the column with that source, if there is one,
and any other value nothing. -/
inductive Resolves (cs : List Column) : List Json → List Column → Prop
  | nil : Resolves cs [] []
  | found {c : Column} {vs : List Json} {ds : List Column} : c ∈ cs → Resolves cs vs ds →
      Resolves cs (.string c.source :: vs) (c :: ds)
  | unknown {s : String} {vs : List Json} {ds : List Column} : (∀ c ∈ cs, c.source ≠ s) → Resolves cs vs ds →
      Resolves cs (.string s :: vs) ds
  | other {v : Json} {vs : List Json} {ds : List Column} : v.string? = none → Resolves cs vs ds →
      Resolves cs (v :: vs) ds

theorem columnOf?_eq_none_iff (e : Entity) :
    e.columnOf? source = none ↔ ∀ c ∈ e.mergedColumns, c.source ≠ source := by
  constructor
  · intro hnone c hc hsource
    rw [(mem_mergedColumns_and_source e).1 ⟨hc, hsource⟩] at hnone
    cases hnone
  · intro hall
    cases hfind : e.columnOf? source with
    | none => rfl
    | some c =>
      obtain ⟨hc, hsource⟩ := (mem_mergedColumns_and_source e).2 hfind
      exact absurd hsource (hall c hc)

theorem resolves_findColumns (e : Entity) (vs : List Json) :
    Resolves e.mergedColumns vs (e.findColumns vs) := by
  induction vs with
  | nil => exact .nil
  | cons v vs ih =>
    rw [findColumns, List.filterMap_cons]
    cases hv : v.string? with
    | none => exact .other hv ih
    | some s =>
      obtain rfl : v = .string s := by
        cases v with
        | string t => exact congrArg Json.string (Option.some.inj hv)
        | _ => cases hv
      rw [Option.bind_some]
      cases hfind : e.columnOf? s with
      | none => exact .unknown ((columnOf?_eq_none_iff e).1 hfind) ih
      | some c =>
        obtain ⟨hc, rfl⟩ := (mem_mergedColumns_and_source e).2 hfind
        exact .found hc ih

/-- What the entries of a list name is the one thing. -/
theorem Resolves.eq_findColumns {e : Entity} {vs : List Json} {ds : List Column}
    (h : Resolves e.mergedColumns vs ds) : ds = e.findColumns vs := by
  induction h with
  | nil => rfl
  | found hc _ ih =>
    have hfind := (mem_mergedColumns_iff e).1 hc
    rw [ih, findColumns, findColumns, List.filterMap_cons, Json.string?, Option.bind_some, hfind]
  | unknown hall _ ih =>
    have hfind := (columnOf?_eq_none_iff e).2 hall
    rw [ih, findColumns, findColumns, List.filterMap_cons, Json.string?, Option.bind_some, hfind]
  | other hv _ ih => rw [ih, findColumns, findColumns, List.filterMap_cons, hv, Option.bind_none]

/-! ## Search groups -/

theorem fillSearch_eq (e : Entity) :
    e.fillSearch = { e with search := some (e.search.getD e.derivedSearch) } := by
  cases h : e.search with
  | none => rw [fillSearch_of_none h, Option.getD_none]
  | some s => rw [fillSearch_of_some h, Option.getD_some, ← h]

/-- **The two searches agree.**  The merged columns are some of all columns in order, of every source that a
column has the first one and no other; a list of sources finds the merged column of each string that is a
source, in order, and nothing else; and filling in the search groups changes no other field, and nothing when
it is done again. -/
theorem searches_agree (e : Entity) :
    e.mergedColumns.Sublist (e.columns ++ e.pageColumns) ∧
      (e.mergedColumns.map Column.source).Nodup ∧
      (∀ source, source ∈ e.mergedColumns.map Column.source ↔
        source ∈ e.columns.map Column.source ∨ source ∈ e.pageColumns.map Column.source) ∧
      (∀ source c, e.mergedColumns.filter (·.source == source) = [c] ↔
        IsFirst (e.columns ++ e.pageColumns) source c) ∧
      (∀ vs ds, Resolves e.mergedColumns vs ds ↔ ds = e.findColumns vs) ∧
      e.fillSearch = { e with search := some (e.search.getD e.derivedSearch) } ∧
      e.fillSearch.fillSearch = e.fillSearch := by
  have hsources : e.mergedColumns.map Column.source = Text.distinct (e.allColumns.map Column.source) :=
    map_source_firstPerSource [] e.allColumns
  refine ⟨firstPerSource_sublist [] e.allColumns, ?_, ?_, ?_, ?_, fillSearch_eq e, ?_⟩
  · rw [hsources]
    exact Text.nodup_distinct _
  · intro source
    rw [hsources, Text.mem_distinct, allColumns, List.map_append, List.mem_append]
  · intro source c
    rw [filter_mergedColumns, Option.toList_eq_singleton_iff]
    exact find?_source_eq_some_iff
  · intro vs ds
    constructor
    · exact Resolves.eq_findColumns
    · rintro rfl
      exact resolves_findColumns e vs
  · obtain ⟨s, hs⟩ := Option.isSome_iff_exists.1 (fillSearch_isSome e)
    exact fillSearch_of_some hs

end ClientBuild.Entity
