import ClientBuild.Locale
import ClientBuild.Proofs.Json.Kept
import ClientBuild.Proofs.Text.Separator

/-!
# Packed tables

A table below a directory of locales is packed into one string.  The string splits into the keys and
texts again where these hold no separator (`packed_splits`).  A packed table is itself an array, of one
entry that has no text, and such an entry is left out: packing it again leaves nothing, so that only
empty tables may be packed twice (`sanitize_again_iff`).
-/

namespace ClientBuild.Locale

variable {code id : List Char} {entries : List Json} {pair : String × String}
  {pairs : List (String × String)}

/-- Is the file a table of texts that is packed? -/
def IsTablePath (id : List Char) : Prop :=
  Text.endsWith ".json".toList id = true ∧ Text.contains "/locale/".toList id = true

instance (id : List Char) : Decidable (IsTablePath id) := inferInstanceAs (Decidable (_ ∧ _))

/-- A packed table as a value. -/
def packed (s : String) : Json := .array [.array [.string s]]

theorem packed_inj {s t : String} : packed s = packed t ↔ s = t := by
  simp [packed]

theorem parse?_render_array (h : (Json.array entries).ReadsBack Json.depthLimit)
    (hsettled : (Json.array entries).settled = .array entries) :
    Json.parse? (Json.array entries).render = some (.array entries) := by
  rw [Json.parse?, Json.readAs?_render (Json.Shape.keeps_whole _) h, Option.map_some, hsettled]

/-- A packed table is read as it was written. -/
theorem parse?_packed (s : String) : Json.parse? (packed s).render = some (packed s) := by
  refine parse?_render_array ?_ rfl
  simp [Json.depthLimit, Json.readsBack_array]

theorem sanitize_array (hid : IsTablePath id) (hcode : Json.parse? code = some (.array entries)) :
    sanitize code id = .ok (some (packed (String.ofList (pack entries))).render) := by
  obtain ⟨hfile, hdirectory⟩ := hid
  have hfile : ¬ (!Text.endsWith ".json".toList id) = true := by rw [hfile]; decide
  rw [sanitize, if_neg hfile, hcode]
  simp only [hdirectory, sanitizeValue, if_true, packed]

/-! ## Reading a packed table -/

/-- Does a text hold none of the separators of a packed table? -/
def IsFree (s : String) : Prop := ¬ pairSeparator <:+: s.toList ∧ ¬ entrySeparator <:+: s.toList

instance (s : String) : Decidable (IsFree s) := inferInstanceAs (Decidable (¬ _ ∧ ¬ _))

/-- An entry of a packed table. -/
def entryText (pair : String × String) : List Char :=
  pair.1.toList ++ pairSeparator ++ pair.2.toList

theorem pairSeparator_eq : pairSeparator = "<__=__".toList ++ ['>'] := rfl

theorem entrySeparator_eq : entrySeparator = "<__&__".toList ++ ['>'] := rfl

theorem splitAround_entryText (hkey : IsFree pair.1) (htext : IsFree pair.2) :
    Text.splitAround pairSeparator (entryText pair) = [pair.1.toList, pair.2.toList] := by
  have hjoin : entryText pair = Text.join pairSeparator [pair.1.toList, pair.2.toList] := rfl
  have hfree : ∀ a ∈ [pair.1.toList, pair.2.toList], ¬ pairSeparator <:+: a := by
    simp [hkey.1, htext.1]
  rw [pairSeparator_eq] at hfree
  rw [hjoin, pairSeparator_eq]
  exact Text.splitAround_join (by decide) (by simp) hfree

/-- The separator of a pair has a character between its halves that the separator of entries lacks, so
an occurrence of the latter stands on one side of it, and none of the halves has both of its ends. -/
theorem not_entrySeparator_infix (hkey : IsFree pair.1) (htext : IsFree pair.2) :
    ¬ entrySeparator <:+: entryText pair := by
  intro h
  have hsplit : entryText pair =
      (pair.1.toList ++ "<__".toList) ++ '=' :: ("__>".toList ++ pair.2.toList) := by
    rw [entryText, List.append_assoc, List.append_assoc]
    rfl
  rw [hsplit] at h
  rcases (Text.infix_append_cons_iff (by decide)).1 h with hleft | hright
  · rw [entrySeparator_eq] at hleft
    exact hkey.2 (Text.infix_of_infix_append_of_last (by decide) hleft)
  · exact htext.2 (Text.infix_of_infix_append_of_head (p := "__&__>".toList) (by decide) hright)

/-- An entry of a table with a key and a text: what stands behind them is not packed. -/
def Spells (v : Json) (pair : String × String) : Prop :=
  ∃ more, v = .array (.string pair.1 :: .string pair.2 :: more)

theorem pack_eq (h : List.Forall₂ Spells entries pairs) :
    pack entries = Text.join entrySeparator (pairs.map entryText) := by
  have hentries : entries.filterMap packEntry? = pairs.map entryText := by
    induction h with
    | nil => rfl
    | cons hv _ ih =>
      obtain ⟨more, rfl⟩ := hv
      rw [List.filterMap_cons, ih]
      rfl
  rw [pack, hentries]

/-- The string of a table splits into its keys and texts. -/
theorem splitAround_pack (h : List.Forall₂ Spells entries pairs)
    (hne : entries ≠ []) (hfree : ∀ pair ∈ pairs, IsFree pair.1 ∧ IsFree pair.2) :
    (Text.splitAround entrySeparator (pack entries)).map (Text.splitAround pairSeparator) =
      pairs.map fun pair => [pair.1.toList, pair.2.toList] := by
  have hpairs : pairs.map entryText ≠ [] := by
    intro hnil
    rw [List.map_eq_nil_iff] at hnil
    subst hnil
    exact hne (List.forall₂_nil_right_iff.1 h)
  have hentries : ∀ a ∈ pairs.map entryText, ¬ entrySeparator <:+: a := by
    intro a ha
    obtain ⟨pair, hpair, rfl⟩ := List.mem_map.1 ha
    exact not_entrySeparator_infix (hfree pair hpair).1 (hfree pair hpair).2
  rw [entrySeparator_eq] at hentries
  rw [pack_eq h, entrySeparator_eq, Text.splitAround_join (by decide) hpairs hentries, List.map_map]
  exact List.map_congr_left fun pair hpair =>
    splitAround_entryText (hfree pair hpair).1 (hfree pair hpair).2

/-- **A packed table can be read.**  A table of at least one entry, each an array that begins with a
key and a text, is packed into an array of an array of a string; where no key and no text holds a
separator, that string splits into the keys with their texts, in order. -/
theorem packed_splits (hid : IsTablePath id)
    (hcode : Json.parse? code = some (.array entries)) (hne : entries ≠ [])
    (hentries : List.Forall₂ Spells entries pairs)
    (hfree : ∀ pair ∈ pairs, IsFree pair.1 ∧ IsFree pair.2) :
    ∃ out s, sanitize code id = .ok (some out) ∧
      Json.parse? out = some (.array [.array [.string s]]) ∧
      (Text.splitAround entrySeparator s.toList).map (Text.splitAround pairSeparator) =
        pairs.map fun pair => [pair.1.toList, pair.2.toList] := by
  refine ⟨_, _, sanitize_array hid hcode, parse?_packed _, ?_⟩
  rw [String.toList_ofList]
  exact splitAround_pack hentries hne hfree

/-- A table of two entries, with halves of separators at the ends of a key and of a text. -/
def greetings : List Json :=
  [.array [.string "hi<__", .string "=__>你好"], .array [.string "", .string "b", .null]]

theorem parse?_greetings : Json.parse? "[[\"hi<__\",\"=__>你好\"],[\"\",\"b\",null]]".toList =
    some (.array greetings) := by
  have hrender : "[[\"hi<__\",\"=__>你好\"],[\"\",\"b\",null]]".toList = (Json.array greetings).render := by
    decide
  rw [hrender]
  refine parse?_render_array ?_ rfl
  simp [greetings, Json.depthLimit, Json.readsBack_array]

/-- The two entries are read from the string that they are packed into. -/
theorem packed_splits_greetings : ∃ out s,
    sanitize "[[\"hi<__\",\"=__>你好\"],[\"\",\"b\",null]]".toList "src/locale/zh.json".toList =
        .ok (some out) ∧
      Json.parse? out = some (.array [.array [.string s]]) ∧
      (Text.splitAround entrySeparator s.toList).map (Text.splitAround pairSeparator) =
        [["hi<__".toList, "=__>你好".toList], ["".toList, "b".toList]] := by
  have hentries : List.Forall₂ Spells greetings [("hi<__", "=__>你好"), ("", "b")] :=
    .cons ⟨[], rfl⟩ (.cons ⟨[.null], rfl⟩ .nil)
  exact packed_splits (by decide) parse?_greetings (by decide) hentries (by decide)

/-! ## Packing again -/

/-- An entry with a key and a text and nothing behind them. -/
def IsPair (v : Json) : Prop := ∃ key text, v = .array [key, text]

theorem pack_packed (s : String) : pack [.array [.string s]] = [] := rfl

theorem pack_eq_nil_iff (h : ∀ v ∈ entries, IsPair v) : pack entries = [] ↔ entries = [] := by
  constructor
  · intro hpack
    cases entries with
    | nil => rfl
    | cons v entries =>
      obtain ⟨key, text, rfl⟩ := h v List.mem_cons_self
      have hentry : plainText key ++ pairSeparator ++ plainText text <:+:
          pack (.array [key, text] :: entries) :=
        Text.isInfix_join (List.mem_filterMap.2 ⟨_, List.mem_cons_self, rfl⟩)
      have hseparator : pairSeparator <:+: [] :=
        hpack ▸ List.IsInfix.trans ⟨plainText key, plainText text, rfl⟩ hentry
      exact absurd (List.infix_nil.1 hseparator) (by decide)
  · rintro rfl
    rfl

/-- **Only an empty table may be packed twice.**  Packing the packed form of a table of pairs leaves
the empty table, whatever was in it; so its text stays as it is just when there was nothing in it. -/
theorem sanitize_again_iff (hid : IsTablePath id) (hcode : Json.parse? code = some (.array entries))
    (hentries : ∀ v ∈ entries, IsPair v) :
    ∃ out, sanitize code id = .ok (some out) ∧ sanitize out id = .ok (some "[[\"\"]]".toList) ∧
      (sanitize out id = .ok (some out) ↔ entries = []) := by
  have hempty : (packed (String.ofList [])).render = "[[\"\"]]".toList := by decide
  have hagain : sanitize (packed (String.ofList (pack entries))).render id =
      .ok (some "[[\"\"]]".toList) := by
    rw [sanitize_array hid (parse?_packed _), pack_packed, hempty]
  refine ⟨_, sanitize_array hid hcode, hagain, ?_⟩
  rw [hagain, ← pack_eq_nil_iff hentries]
  constructor
  · intro hsame
    have hparse := parse?_packed (String.ofList (pack entries))
    rw [← Option.some.inj (Except.ok.inj hsame), ← hempty, parse?_packed] at hparse
    exact (String.ofList_injective (packed_inj.1 (Option.some.inj hparse))).symm
  · intro hnil
    rw [hnil, hempty]

theorem parse?_pair :
    Json.parse? "[[\"a\",\"b\"]]".toList = some (.array [.array [.string "a", .string "b"]]) := by
  have hrender : "[[\"a\",\"b\"]]".toList =
      (Json.array [.array [.string "a", .string "b"]]).render := by decide
  rw [hrender]
  refine parse?_render_array ?_ rfl
  simp [Json.depthLimit, Json.readsBack_array]

/-- The table of one pair may not be packed twice. -/
theorem sanitize_again_iff_pair :
    ∃ out, sanitize "[[\"a\",\"b\"]]".toList "/locale/en.json".toList = .ok (some out) ∧
      sanitize out "/locale/en.json".toList = .ok (some "[[\"\"]]".toList) ∧
      (sanitize out "/locale/en.json".toList = .ok (some out) ↔
        [Json.array [.string "a", .string "b"]] = []) :=
  sanitize_again_iff (by decide) parse?_pair (by simp [IsPair])

/-- A table of one pair loses it when it is packed twice. -/
theorem packed_table_lost :
    sanitize "[[\"a\",\"b\"]]".toList "/locale/en.json".toList =
        .ok (some "[[\"a<__=__>b\"]]".toList) ∧
      sanitize "[[\"a<__=__>b\"]]".toList "/locale/en.json".toList = .ok (some "[[\"\"]]".toList) := by
  have hrender : "[[\"a<__=__>b\"]]".toList = (packed "a<__=__>b").render := by decide
  constructor
  · rw [sanitize_array (by decide) parse?_pair]
    rfl
  · rw [hrender, sanitize_array (by decide) (parse?_packed _)]
    rfl

end ClientBuild.Locale
