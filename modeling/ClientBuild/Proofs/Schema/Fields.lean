import ClientBuild.Proofs.Json.Members
import ClientBuild.Schema.Read

/-!
# The records of the schema as tables

An entity is made of records of eight kinds, and a record is a table of fields: the modelled keys with what
their values hold.  All of the readers follow their tables (`ofJson?_eq`).  So a value is read by what it has
under the keys of its table, `null` and nothing being the same, and by the members that are not modelled
(`ofRecord?_congr`); and it can be read if and only if what it has under every key can (`isSome_ofJson?`).
-/

namespace ClientBuild

open Json

/-! ## Tables -/

/-- The records that an entity is made of. -/
inductive RecordKind where
  | entity
  | method
  /-- What a method says about its request. -/
  | request
  | parameter
  /-- What a parameter says about its type. -/
  | parameterType
  | column
  | pageQuery
  | search
deriving DecidableEq

namespace RecordKind

/-- What a record is read as. -/
abbrev Value : RecordKind → Type
  | entity => Entity
  | method => Method
  | request => List Parameter
  | parameter => Parameter
  | parameterType => Option String
  | column => Column
  | pageQuery => PageQuery
  | search => Search

/-- Read a record. -/
def ofJson? : (k : RecordKind) → Json → Option k.Value
  | entity => Entity.ofJson?
  | method => Method.ofJson?
  | request => Method.parametersOfJson?
  | parameter => Parameter.ofJson?
  | parameterType => Parameter.typeOfJson?
  | column => Column.ofJson?
  | pageQuery => PageQuery.ofJson?
  | search => Search.ofJson?

/-- The record of which nothing was said. -/
def absent : (k : RecordKind) → k.Value
  | entity => {}
  | method => {}
  | request => []
  | parameter => {}
  | parameterType => none
  | column => {}
  | pageQuery => {}
  | search => {}

/-- Are members that are not modelled kept?  Such a record is always an object. -/
def keepsExtra : RecordKind → Bool
  | entity | method | column => true
  | request | parameter | parameterType | pageQuery | search => false

end RecordKind

/-- What the value of a modelled key holds. -/
inductive Content where
  | text
  | flag
  /-- A list of any values. -/
  | values
  | record (k : RecordKind)
  /-- A list of records. -/
  | records (k : RecordKind)
deriving DecidableEq

namespace Content

/-- What a value is read as. -/
abbrev Value : Content → Type
  | text => String
  | flag => Bool
  | values => List Json
  | record k => k.Value
  | records k => List k.Value

/-- Read a value. -/
def read : (c : Content) → Json → Option c.Value
  | text => asString
  | flag => asBool
  | values => asList asAny
  | record k => k.ofJson?
  | records k => asList k.ofJson?

/-- What no value is read as. -/
def absent : (c : Content) → c.Value
  | text => ""
  | flag => false
  | values => []
  | record k => k.absent
  | records _ => []

end Content

/-- A modelled key of a record and what its value holds. -/
structure Field where
  key : String
  content : Content
  /-- Is a record without the value told apart from one that has the default? -/
  optional : Bool := false
deriving DecidableEq

namespace Field

/-- What a field is read as. -/
abbrev Value : Field → Type
  | ⟨_, c, false⟩ => c.Value
  | ⟨_, c, true⟩ => Option c.Value

/-- Read a field of a record. -/
def ofRecord? : (x : Field) → Record → Option x.Value
  | ⟨key, c, false⟩, r => r.nullable key c.read c.absent
  | ⟨key, c, true⟩, r => r.optional key c.read

/-- What a list of fields is read as. -/
abbrev Values : List Field → Type
  | [] => Unit
  | x :: xs => x.Value × Values xs

/-- Read a list of fields of a record. -/
def allOfRecord? : (xs : List Field) → Record → Option (Values xs)
  | [], _ => some ()
  | x :: xs, r => (x.ofRecord? r).bind fun a => (allOfRecord? xs r).map fun as => (a, as)

end Field

namespace RecordKind

/-- The fields of a record. -/
abbrev fields : RecordKind → List Field
  | entity =>
    [⟨"prefix", .text, false⟩, ⟨"name", .text, false⟩, ⟨"namespace", .text, false⟩, ⟨"module", .text, true⟩,
     ⟨"api", .records method, false⟩, ⟨"columns", .records column, false⟩,
     ⟨"pageColumns", .records column, false⟩, ⟨"pageQueryOp", .record pageQuery, true⟩,
     ⟨"search", .record search, true⟩]
  | method =>
    [⟨"path", .text, false⟩, ⟨"method", .text, false⟩, ⟨"name", .text, true⟩, ⟨"summary", .text, true⟩,
     ⟨"prefix", .text, true⟩, ⟨"tag", .text, true⟩, ⟨"dts", .record request, false⟩]
  | request => [⟨"parameters", .records parameter, false⟩]
  | parameter =>
    [⟨"name", .text, false⟩, ⟨"required", .flag, false⟩, ⟨"description", .text, true⟩,
     ⟨"schema", .record parameterType, false⟩]
  | parameterType => [⟨"type", .text, true⟩]
  | column =>
    [⟨"propertyName", .text, false⟩, ⟨"type", .text, false⟩, ⟨"source", .text, false⟩,
     ⟨"comment", .text, false⟩, ⟨"nullable", .flag, false⟩]
  | pageQuery =>
    [⟨"fieldEq", .values, false⟩, ⟨"fieldLike", .values, false⟩, ⟨"keyWordLikeFields", .values, false⟩]
  | search =>
    [⟨"fieldEq", .records column, false⟩, ⟨"fieldLike", .records column, false⟩,
     ⟨"keyWordLikeFields", .records column, false⟩]

/-- The modelled keys of a record. -/
def keys (k : RecordKind) : List String := k.fields.map Field.key

/-- The members of a record, those with modelled keys apart. -/
def open? (k : RecordKind) (v : Json) : Option Record :=
  if k.keepsExtra then Record.open? k.keys v else Record.closed? k.keys v

/-- The record of what was read under its keys. -/
def make : (k : RecordKind) → Extra → Field.Values k.fields → k.Value
  | entity, extra, (route, name, hint, module, methods, columns, pageColumns, query, groups, ()) =>
    ⟨route, name, hint, module, methods, columns, pageColumns, query, groups, extra⟩
  | method, extra, (path, verb, name, summary, route, tag, parameters, ()) =>
    ⟨path, verb, name, summary, route, tag, parameters, extra⟩
  | request, _, (parameters, ()) => parameters
  | parameter, _, (name, required, description, type, ()) => ⟨name, required, description, type⟩
  | parameterType, _, (type, ()) => type
  | column, extra, (propertyName, type, source, comment, nullable, ()) =>
    ⟨propertyName, type, source, comment, nullable, extra⟩
  | pageQuery, _, (fieldEq, fieldLike, keyWordLikeFields, ()) => ⟨fieldEq, fieldLike, keyWordLikeFields⟩
  | search, _, (fieldEq, fieldLike, keyWordLikeFields, ()) => ⟨fieldEq, fieldLike, keyWordLikeFields⟩

/-- Read the members of a record by its table. -/
def ofRecord? (k : RecordKind) (r : Record) : Option k.Value :=
  (Field.allOfRecord? k.fields r).map (k.make r.extra)

/-! ## Reading by a table -/

end RecordKind

namespace Field

variable {x : Field} {r r' : Record}

/-- What a field is read as follows from its value, `null` and nothing being the same. -/
theorem ofRecord?_congr (h : (r'.present? x.key).map x.content.read = (r.present? x.key).map x.content.read) :
    x.ofRecord? r' = x.ofRecord? r := by
  obtain ⟨key, c, optional⟩ := x
  cases optional with
  | false =>
    have hread (r : Record) : ofRecord? ⟨key, c, false⟩ r = ((r.present? key).map c.read).getD (some c.absent) := by
      rw [ofRecord?, Record.nullable_eq]
      cases r.present? key with
      | none => rfl
      | some v => rfl
    rw [hread, hread, h]
  | true =>
    have hread (r : Record) :
        ofRecord? ⟨key, c, true⟩ r = ((r.present? key).map c.read).elim (some none) (Option.map some) := by
      rw [ofRecord?, Record.optional_eq]
      cases r.present? key with
      | none => rfl
      | some v => rfl
    rw [hread, hread, h]

/-- A field can be read if its value can, or has none. -/
theorem isSome_ofRecord? : (x.ofRecord? r).isSome ↔ ∀ v ∈ r.present? x.key, (x.content.read v).isSome := by
  obtain ⟨key, c, optional⟩ := x
  cases optional with
  | false =>
    rw [ofRecord?, Record.nullable_eq]
    cases r.present? key with
    | none => simp
    | some v => simp
  | true =>
    rw [ofRecord?, Record.optional_eq]
    cases r.present? key with
    | none => simp
    | some v => simp

theorem allOfRecord?_congr {xs : List Field} (h : ∀ x ∈ xs, x.ofRecord? r' = x.ofRecord? r) :
    allOfRecord? xs r' = allOfRecord? xs r := by
  induction xs with
  | nil => rfl
  | cons x xs ih =>
    obtain ⟨hx, hxs⟩ := List.forall_mem_cons.1 h
    rw [allOfRecord?, allOfRecord?, hx, ih hxs]

theorem isSome_allOfRecord? {xs : List Field} :
    (allOfRecord? xs r).isSome ↔ ∀ x ∈ xs, (x.ofRecord? r).isSome := by
  induction xs with
  | nil => simp [allOfRecord?]
  | cons x xs ih =>
    rw [List.forall_mem_cons, ← ih, allOfRecord?]
    cases x.ofRecord? r with
    | none => simp
    | some a => simp

end Field

namespace RecordKind

variable {k : RecordKind} {r r' : Record}

/-- **All of the readers follow their tables.** -/
theorem ofJson?_eq (k : RecordKind) (v : Json) : k.ofJson? v = (k.open? v).bind k.ofRecord? := by
  cases k with
  | request | parameterType =>
    -- A reader that makes nothing of its one field answers it at once.
    refine Option.bind_congr fun r _ => ?_
    simp only [ofRecord?, Field.allOfRecord?, Option.map_bind, Function.comp_def, Option.map_some]
    exact (Option.bind_fun_some _).symm
  | _ =>
    refine Option.bind_congr fun r _ => ?_
    simp only [ofRecord?, Field.allOfRecord?, Option.map_bind, Function.comp_def, Option.map_some]
    rfl

theorem ofRecord?_congr (hextra : r'.extra = r.extra) (h : ∀ x ∈ k.fields, x.ofRecord? r' = x.ofRecord? r) :
    k.ofRecord? r' = k.ofRecord? r := by
  rw [ofRecord?, ofRecord?, hextra, Field.allOfRecord?_congr h]

theorem isSome_ofRecord? : (k.ofRecord? r).isSome ↔
    ∀ x ∈ k.fields, ∀ v ∈ r.present? x.key, (x.content.read v).isSome := by
  rw [ofRecord?, Option.isSome_map, Field.isSome_allOfRecord?]
  exact forall₂_congr fun _ _ => Field.isSome_ofRecord?

/-- A record can be read if it has members, and what it has under every key can be read. -/
theorem isSome_ofJson? {v : Json} : (k.ofJson? v).isSome ↔
    ∃ r, k.open? v = some r ∧ ∀ x ∈ k.fields, ∀ u ∈ r.present? x.key, (x.content.read u).isSome := by
  rw [ofJson?_eq]
  cases k.open? v with
  | none => simp
  | some r =>
    rw [Option.bind_some, isSome_ofRecord?]
    simp

theorem nodup_keys (k : RecordKind) : k.keys.Nodup := by
  cases k
  all_goals decide

theorem key_mem_keys {x : Field} (h : x ∈ k.fields) : x.key ∈ k.keys := List.mem_map_of_mem h

/-- The key tells the field. -/
theorem eq_of_key_eq {x y : Field} (hx : x ∈ k.fields) (hy : y ∈ k.fields) (h : x.key = y.key) : x = y :=
  List.inj_on_of_nodup_map (nodup_keys k) hx hy h

end RecordKind

end ClientBuild
