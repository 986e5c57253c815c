import ClientBuild.Locale
import ClientBuild.Proofs.Json.Kept
import ClientBuild.Proofs.Style.Faithful
import Mathlib.Data.List.Nodup

/-!
# Safe keys tell their keys

The words for the characters of a locale key are put in one after the other, and the dashes of the words
that are there by then are written out as well.  All the same a key is written character by character
(`encodeLocaleKey_eq_flatMap`), and the code of a character is no beginning of the code of another one as
long as none of them is the dash (`eq_of_localeCode_prefix`).  So keys without dashes are told by their safe
keys, and an object of such keys keeps all its members (`keys_stay_distinct`).

The dash has to be left out: its own code is the beginning of the codes of most others.
-/

namespace ClientBuild.Text

/-- A text is told by the codes of its characters, if none of them is the beginning of another one. -/
theorem flatMap_inj {code : Char → List Char} {P : Char → Prop} (hne : ∀ c, P c → code c ≠ [])
    (hcode : ∀ c d, P c → P d → code c <+: code d → c = d) {s : List Char} :
    ∀ {t : List Char}, (∀ c ∈ s, P c) → (∀ c ∈ t, P c) → s.flatMap code = t.flatMap code → s = t := by
  induction s with
  | nil =>
    intro t _ ht h
    cases t with
    | nil => rfl
    | cons d t =>
      rw [List.flatMap_nil, List.flatMap_cons, eq_comm, List.append_eq_nil_iff] at h
      exact absurd h.1 (hne d (ht d List.mem_cons_self))
  | cons c s ih =>
    intro t hs ht h
    obtain ⟨hc, hs'⟩ := List.forall_mem_cons.1 hs
    cases t with
    | nil =>
      rw [List.flatMap_nil, List.flatMap_cons, List.append_eq_nil_iff] at h
      exact absurd h.1 (hne c hc)
    | cons d t =>
      obtain ⟨hd, ht'⟩ := List.forall_mem_cons.1 ht
      simp only [List.flatMap_cons] at h
      -- Both codes begin the same text, so one of them begins the other.
      have hsame : c = d := by
        have hfront : code d <+: code c ++ s.flatMap code := ⟨t.flatMap code, h.symm⟩
        rcases List.prefix_or_prefix_of_prefix (List.prefix_append _ _) hfront with hcd | hdc
        · exact hcode c d hc hd hcd
        · exact (hcode d c hd hc hdc).symm
      subst hsame
      rw [ih hs' ht' (List.append_cancel_left h)]

end ClientBuild.Text

namespace ClientBuild.Style.SafeName

/-! ## The codes of characters -/

/-- What becomes of a character of a locale key. -/
def localeCode (c : Char) : List Char := encodeLocaleKey [c]

theorem encodeLocaleKey_eq_flatMap (s : List Char) : encodeLocaleKey s = s.flatMap localeCode := by
  induction s with
  | nil => rfl
  | cons c s ih =>
    have hsplit : encodeLocaleKey (c :: s) = localeCode c ++ encodeLocaleKey s :=
      replaceAllIn_append [c] s localeWords
    rw [hsplit, ih, List.flatMap_cons]

/-- The characters of a locale key that are written out, besides the dash. -/
def writtenOut : List Char := (localeWords.map Prod.fst).filter (· != '-')

theorem head?_localeCode : ∀ c ∈ writtenOut, (localeCode c).head? = some '-' := by decide

/-- No code begins another one. -/
theorem startsWith_localeCode : ∀ c ∈ writtenOut, ∀ d ∈ writtenOut,
    Text.startsWith (localeCode c) (localeCode d) = true → c = d := by decide +kernel

theorem localeCode_of_not_mem {c : Char} (hdash : c ≠ '-') (hc : c ∉ writtenOut) : localeCode c = [c] := by
  refine replaceAllIn_eq_self fun d hd hmem => hc ?_
  rw [List.mem_singleton] at hmem
  subst hmem
  exact List.mem_filter.2 ⟨hd, by simpa using hdash⟩

theorem localeCode_ne_nil {c : Char} (hdash : c ≠ '-') : localeCode c ≠ [] := by
  by_cases hc : c ∈ writtenOut
  · intro hnil
    have hhead := head?_localeCode c hc
    rw [hnil] at hhead
    cases hhead
  · rw [localeCode_of_not_mem hdash hc]
    exact List.cons_ne_nil c []

/-- The code of a character begins with a dash just if the character is written out. -/
theorem head?_localeCode_iff {c : Char} (hdash : c ≠ '-') : (localeCode c).head? = some '-' ↔ c ∈ writtenOut := by
  constructor
  · intro hhead
    by_contra hc
    rw [localeCode_of_not_mem hdash hc] at hhead
    exact hdash (Option.some.inj hhead)
  · exact head?_localeCode c

/-- The code of a character other than the dash begins no other one. -/
theorem eq_of_localeCode_prefix {c d : Char} (hc : c ≠ '-') (hd : d ≠ '-') (h : localeCode c <+: localeCode d) :
    c = d := by
  have hhead : (localeCode c).head? = (localeCode d).head? := by
    obtain ⟨r, hr⟩ := h
    rw [← hr, List.head?_append_of_ne_nil _ (localeCode_ne_nil hc)]
  have hboth : c ∈ writtenOut ↔ d ∈ writtenOut := by
    rw [← head?_localeCode_iff hc, ← head?_localeCode_iff hd, hhead]
  by_cases hmem : c ∈ writtenOut
  · exact startsWith_localeCode c hmem d (hboth.1 hmem) (Text.startsWith_iff.2 h)
  · rw [localeCode_of_not_mem hc hmem, localeCode_of_not_mem hd fun hd => hmem (hboth.2 hd)] at h
    exact (List.cons_prefix_cons.1 h).1

/-- **Keys without dashes are told by their safe keys.** -/
theorem encodeLocaleKey_inj {s t : List Char} (hs : '-' ∉ s) (ht : '-' ∉ t)
    (h : encodeLocaleKey s = encodeLocaleKey t) : s = t := by
  rw [encodeLocaleKey_eq_flatMap, encodeLocaleKey_eq_flatMap] at h
  have hplain {s : List Char} (hs : '-' ∉ s) : ∀ c ∈ s, c ≠ '-' := by
    rintro c hc rfl
    exact hs hc
  exact Text.flatMap_inj (fun c => localeCode_ne_nil) (fun c d => eq_of_localeCode_prefix) (hplain hs) (hplain ht) h

end ClientBuild.Style.SafeName

namespace ClientBuild.Locale

open Style.SafeName (encodeLocaleKey encodeLocaleKey_inj)

variable {code id : List Char} {members : List (String × Json)}

/-! ## Objects under safe keys -/

/-- A key in its safe form. -/
def safeKey (k : String) : String := String.ofList (encodeLocaleKey k.toList)

theorem safeKey_inj {k l : String} (hk : '-' ∉ k.toList) (hl : '-' ∉ l.toList) (h : safeKey k = safeKey l) : k = l :=
  String.toList_injective (encodeLocaleKey_inj hk hl (String.ofList_injective h))

/-- Distinct keys without dashes stay distinct. -/
theorem nodup_safeKeys {ks : List String} (h : ks.Nodup) (hdash : ∀ k ∈ ks, '-' ∉ k.toList) :
    (ks.map safeKey).Nodup := by
  refine List.Nodup.map_on ?_ h
  intro k hk l hl heq
  exact safeKey_inj (hdash k hk) (hdash l hl) heq

/-- Where no two keys become equal, each member keeps its place and its value. -/
theorem renameKeys_of_nodup (h : ((Assoc.keys members).map safeKey).Nodup) :
    renameKeys members = members.map fun m => (safeKey m.1, m.2) := by
  refine Assoc.ofPairs_of_nodup ?_
  have hkeys : Assoc.keys (members.map fun m => (safeKey m.1, m.2)) = (Assoc.keys members).map safeKey := by
    simp [Assoc.keys, Function.comp_def]
  exact hkeys ▸ h

/-- An object without repeated keys is the value of its text. -/
theorem parse?_object (hcode : Json.readAs? .whole code = some (.object members))
    (h : (Assoc.keys members).Nodup) :
    Json.parse? code = some (.object (Assoc.mapValues Json.settled members)) := by
  rw [Json.parse?, hcode, Option.map_some, Json.settled, Json.settledMembers_eq, Assoc.ofPairs_of_nodup]
  rwa [Assoc.keys_mapValues]

theorem sanitize_object (hid : Text.endsWith ".json".toList id = true)
    (hcode : Json.parse? code = some (.object members)) :
    sanitize code id = .ok (some (Json.object (renameKeys members)).render) := by
  have hfile : ¬ (!Text.endsWith ".json".toList id) = true := by
    rw [hid]
    decide
  rw [sanitize, if_neg hfile, hcode]

/-- **Keys without dashes never merge.**  Two of them never have one safe key; so a file of an object whose
keys are distinct and have no dashes is written as an object with a member for each of its members, in order
and with the same value, under distinct keys. -/
theorem keys_stay_distinct :
    (∀ s t : List Char, '-' ∉ s → '-' ∉ t → encodeLocaleKey s = encodeLocaleKey t → s = t) ∧
      ∀ (code id : List Char) (members : List (String × Json)), Text.endsWith ".json".toList id = true →
        Json.readAs? .whole code = some (.object members) → (Assoc.keys members).Nodup →
        (∀ k ∈ Assoc.keys members, '-' ∉ k.toList) →
        ∃ renamed, sanitize code id = .ok (some (Json.object renamed).render) ∧
          Json.Raw.parse? (Json.object renamed).render = some (.object (Json.rawMembers renamed)) ∧
          renamed.length = members.length ∧
          renamed.map Prod.snd = members.map (fun m => m.2.settled) ∧
          Assoc.keys renamed = (Assoc.keys members).map safeKey ∧ (Assoc.keys renamed).Nodup := by
  refine ⟨fun s t => encodeLocaleKey_inj, ?_⟩
  intro code id members hid hcode hnodup hdash
  have hsafe := nodup_safeKeys hnodup hdash
  have hkeys : Assoc.keys (members.map fun m => (safeKey m.1, m.2.settled)) = (Assoc.keys members).map safeKey := by
    simp [Assoc.keys, Function.comp_def]
  have hrenamed : renameKeys (Assoc.mapValues Json.settled members) =
      members.map fun m => (safeKey m.1, m.2.settled) := by
    rw [renameKeys_of_nodup (by rwa [Assoc.keys_mapValues]), Assoc.mapValues, List.map_map]
    rfl
  have hsanitize := sanitize_object hid (parse?_object hcode hnodup)
  rw [hrenamed] at hsanitize
  refine ⟨_, hsanitize, Json.parse?_render _, List.length_map _, ?_, hkeys, ?_⟩
  · rw [List.map_map]
    rfl
  · rw [hkeys]
    exact hsafe

/-- Three keys of signs only, one of them with the name of a sign of another, keep their values. -/
theorem keys_stay_distinct_signs :
    let members : List (String × Json) := [(". ", .string "a"), (".space", .string "b"), ("_", .null)]
    let code := (Json.object members).render
    (Text.endsWith ".json".toList "/en.json".toList = true ∧
        Json.readAs? .whole code = some (.object members) ∧ (Assoc.keys members).Nodup ∧
        ∀ k ∈ Assoc.keys members, '-' ∉ k.toList) ∧
      encodeLocaleKey ". ".toList ≠ encodeLocaleKey ".space".toList ∧
      ∃ renamed, sanitize code "/en.json".toList = .ok (some (Json.object renamed).render) ∧
        Json.Raw.parse? (Json.object renamed).render = some (.object (Json.rawMembers renamed)) ∧
        renamed.length = members.length ∧
        renamed.map Prod.snd = members.map (fun m => m.2.settled) ∧
        Assoc.keys renamed = (Assoc.keys members).map safeKey ∧ (Assoc.keys renamed).Nodup := by
  intro members code
  have hid : Text.endsWith ".json".toList "/en.json".toList = true := by decide
  have hcode : Json.readAs? .whole code = some (.object members) := by
    refine Json.readAs?_render (Json.Shape.keeps_whole _) ?_
    simp [members, Json.depthLimit, Json.readsBack_object]
  have hnodup : (Assoc.keys members).Nodup := by decide
  have hdash : ∀ k ∈ Assoc.keys members, '-' ∉ k.toList := by decide
  obtain ⟨hinj, hobjects⟩ := keys_stay_distinct
  refine ⟨⟨hid, hcode, hnodup, hdash⟩, ?_, hobjects code "/en.json".toList members hid hcode hnodup hdash⟩
  intro hsame
  exact absurd (hinj _ _ (by decide) (by decide) hsame) (by decide)

end ClientBuild.Locale
