import ClientBuild.Proofs.Declaration.Layout
import ClientBuild.Proofs.Declaration.Lines
import Mathlib.Data.List.Forall2

/-!
# The union of the keys of a dictionary

The keys stand in the declarations as string literals with bars between them.  A literal is read to the
quote that closes it, whatever follows (`IsLiteral.append_inj`), so no text is a row of literals in two
ways (`ReadsAs.unique`), and the union of keys is the row of just these keys.  To the layout it is code
that does nothing: the literals escape quotes in the way in which the scan of a line reads strings
(`scanFrom_quote`).
-/

namespace ClientBuild

/-! ## String literals -/

namespace Json

/-- Is all of the text one string literal, and does it say `key`? -/
def IsLiteral (l : List Char) (key : String) : Prop :=
  token? l = some (.value (.string (some key)), l.length)

variable {l l' r r' : List Char} {key key' : String}

theorem isLiteral_quote (key : String) : IsLiteral (quote key) key := by
  simpa [IsLiteral] using token?_quote key []

theorem IsLiteral.ne_nil (h : IsLiteral l key) : l ≠ [] := by
  rintro rfl
  cases h

/-- A literal is read the same in front of another text. -/
theorem IsLiteral.token?_append (h : IsLiteral l key) (hr : StopsAt goesOn r) :
    token? (l ++ r) = some (.value (.string (some key)), l.length) := by
  obtain ⟨x, y, hl, hlength, htoken⟩ := token?_takes h
  obtain rfl : y = [] := by simpa [hl] using hlength
  rw [List.append_nil] at hl
  rw [hl]
  exact htoken.reads.elim (fun hread => hread r) fun hread => hread.2 r hr

/-- **What begins with a literal begins with no other one.** -/
theorem IsLiteral.append_inj (h : IsLiteral l key) (h' : IsLiteral l' key') (hr : StopsAt goesOn r)
    (hr' : StopsAt goesOn r') (heq : l ++ r = l' ++ r') : l = l' ∧ key = key' ∧ r = r' := by
  have hread := h.token?_append hr
  rw [heq, h'.token?_append hr'] at hread
  obtain ⟨rfl, rfl⟩ := List.append_inj heq (congrArg Prod.snd (Option.some.inj hread)).symm
  exact ⟨rfl, by injection hread with hread; cases hread; rfl, rfl⟩

end Json

namespace Declaration

open Style (StringRest)

/-! ## Reading a union -/

/-- Is the text a row of literals with bars between them, that say the keys in order? -/
def ReadsAs (s : List Char) (keys : List String) : Prop :=
  ∃ ls, s = Text.join " | ".toList ls ∧ List.Forall₂ Json.IsLiteral ls keys

theorem stopsAt_members (ls : List (List Char)) :
    Json.StopsAt Json.goesOn (ls.flatMap (" | ".toList ++ ·)) := by
  cases ls with
  | nil => exact Json.stopsAt_nil _
  | cons l ls => exact Json.stopsAt_cons (by decide) _

theorem eq_of_members {ls ls' : List (List Char)} {keys keys' : List String}
    (h : List.Forall₂ Json.IsLiteral ls keys) (h' : List.Forall₂ Json.IsLiteral ls' keys')
    (heq : ls.flatMap (" | ".toList ++ ·) = ls'.flatMap (" | ".toList ++ ·)) : keys = keys' := by
  induction h generalizing ls' keys' with
  | nil =>
    cases h' with
    | nil => rfl
    | cons => cases heq
  | @cons l key ls keys hl hls ih =>
    cases h' with
    | nil => cases heq
    | @cons l' key' ls' keys' hl' hls' =>
      rw [List.flatMap_cons, List.flatMap_cons, List.append_assoc, List.append_assoc] at heq
      obtain ⟨-, rfl, hrest⟩ :=
        hl.append_inj hl' (stopsAt_members ls) (stopsAt_members ls') (List.append_cancel_left heq)
      rw [ih hls' hrest]

/-- **No text is a row of literals in two ways.** -/
theorem ReadsAs.unique {s : List Char} {keys keys' : List String} (h : ReadsAs s keys) (h' : ReadsAs s keys') :
    keys = keys' := by
  obtain ⟨ls, rfl, hls⟩ := h
  obtain ⟨ls', heq, hls'⟩ := h'
  -- An empty row has an empty text, and no literal is empty.
  have hne {l : List Char} {ls : List (List Char)} {key : String} (hl : Json.IsLiteral l key) :
      Text.join " | ".toList (l :: ls) ≠ [] := by
    rw [Text.join_cons]
    exact fun h => hl.ne_nil (List.append_eq_nil_iff.1 h).1
  refine eq_of_members hls hls' ?_
  cases hls with
  | nil =>
    cases hls' with
    | nil => rfl
    | cons hl => exact absurd heq.symm (hne hl)
  | cons hl =>
    cases hls' with
    | nil => exact absurd heq (hne hl)
    | cons =>
      rw [Text.join_cons, Text.join_cons] at heq
      rw [List.flatMap_cons, List.flatMap_cons, List.append_assoc, heq, List.append_assoc]

theorem toList_dictKeyUnion (key : String) (keys : List String) :
    (dictKeyUnion (key :: keys)).toList = Text.join " | ".toList ((key :: keys).map Json.quote) := by
  rw [dictKeyUnion, if_neg (by simp), String.toList_ofList]

theorem readsAs_dictKeyUnion (key : String) (keys : List String) :
    ReadsAs (dictKeyUnion (key :: keys)).toList (key :: keys) := by
  refine ⟨(key :: keys).map Json.quote, toList_dictKeyUnion key keys, ?_⟩
  rw [List.forall₂_map_left_iff]
  exact List.forall₂_same.2 fun key _ => Json.isLiteral_quote key

/-! ## Scanning a union -/

/-- A string is passed over to the quote that closes it. -/
theorem scanFrom_stringRest {q : Char} {t : List Char} (hq : q ≠ '\\') (h : StringRest q t) (s : List Char) :
    scanFrom (.string q false) (t ++ s) = scanFrom (.code true) s := by
  induction h with
  | close => simp [scanFrom, hq]
  | escaped c _ ih => simpa [scanFrom] using ih
  | char hquote hslash _ ih => simpa [scanFrom, hquote, hslash] using ih

theorem scanFrom_quote (seen : Bool) (key : String) (s : List Char) :
    scanFrom (.code seen) (Json.quote key ++ s) = scanFrom (.code true) s := by
  have hstring := scanFrom_stringRest (by decide) (Json.stringRest_escape key.toList) s
  rw [← hstring]
  simp [Json.quote, scanFrom]

theorem scanFrom_join (s : List Char) : ∀ (key : String) (keys : List String) (seen : Bool),
    scanFrom (.code seen) (Text.join " | ".toList ((key :: keys).map Json.quote) ++ s) = scanFrom (.code true) s
  | key, [], seen => scanFrom_quote seen key s
  | key, key' :: keys, seen => by
    have hbar (s : List Char) : scanFrom (.code true) (" | ".toList ++ s) = scanFrom (.code true) s := rfl
    have hrest := scanFrom_join s key' keys true
    rw [List.map_cons, List.map_cons, Text.join, List.append_assoc, List.append_assoc, scanFrom_quote, hbar]
    exact hrest

/-- **The scan of a line passes over a union.** -/
theorem scanFrom_dictKeyUnion (seen : Bool) (key : String) (keys : List String) (s : List Char) :
    scanFrom (.code seen) ((dictKeyUnion (key :: keys)).toList ++ s) = scanFrom (.code true) s := by
  rw [toList_dictKeyUnion]
  exact scanFrom_join s key keys seen

/-- A character that is neither a mark nor a blank is code. -/
theorem scanFrom_code {c : Char} (hc : isMark c = false) (hblank : Text.isBlank c = false) (seen : Bool)
    (s : List Char) : scanFrom (.code seen) (c :: s) = scanFrom (.code true) s := by
  have hne (b : Char) (hb : Text.isBlank b = true) : c ≠ b := by
    rintro rfl
    exact Bool.noConfusion (hb.symm.trans hblank)
  simp only [isMark, Bool.or_eq_false_iff, beq_eq_false_iff_ne] at hc
  simp [scanFrom, hc, hne ' ' (by decide), hne '\t' (by decide)]

/-- Behind code, text without marks does nothing. -/
theorem Unmarked.scanFrom {a : List Char} (ha : Unmarked a) (s : List Char) :
    Declaration.scanFrom (.code true) (a ++ s) = Declaration.scanFrom (.code true) s := by
  induction a with
  | nil => rfl
  | cons c a ih =>
    obtain ⟨hc, ha⟩ := List.forall_mem_cons.1 ha
    simp only [isMark, Bool.or_eq_false_iff, beq_eq_false_iff_ne] at hc
    simp [Declaration.scanFrom, hc, ih ha]

/-! ## The line of a union -/

/-- The line that declares the keys of a dictionary. -/
def dictLine (t : Target) (keys : List String) : List Char :=
  (exportWord t).toList ++ "type DictKey = ".toList ++ (dictKeyUnion keys).toList ++ [';']

theorem exists_dictLine_eq (t : Target) (keys : List String) :
    ∃ c a, isMark c = false ∧ Text.isBlank c = false ∧ Unmarked a ∧
      dictLine t keys = c :: (a ++ ((dictKeyUnion keys).toList ++ [';'])) := by
  obtain ⟨c, a, hhead, hmark, hblank, ha⟩ : ∃ c a, (exportWord t).toList ++ "type DictKey = ".toList = c :: a ∧
      isMark c = false ∧ Text.isBlank c = false ∧ Unmarked a := by
    cases t
    all_goals exact ⟨_, _, rfl, by decide, by decide, by decide⟩
  refine ⟨c, a, hmark, hblank, ha, ?_⟩
  rw [dictLine, hhead, List.append_assoc, List.cons_append]

/-- There is nothing to trim. -/
theorem trim_dictLine (t : Target) (keys : List String) : Text.trim (dictLine t keys) = dictLine t keys := by
  obtain ⟨c, a, -, hblank, -, hline⟩ := exists_dictLine_eq t keys
  rw [hline]
  exact Text.trim_eq_self (d := ';') hblank (by decide) (by rw [← List.append_assoc, ← List.cons_append])

/-- **The layout counts no brace on the line of a union and opens no comment there.** -/
theorem scanLine_dictLine (t : Target) (key : String) (keys : List String) :
    scanLine false (Text.trim (dictLine t (key :: keys))) = {} := by
  obtain ⟨c, a, hmark, hblank, ha, hline⟩ := exists_dictLine_eq t (key :: keys)
  have hend : scanFrom (.code true) [';'] = {} := rfl
  rw [trim_dictLine, hline, scanLine, if_neg (by decide), scanFrom_code hmark hblank, ha.scanFrom,
    scanFrom_dictKeyUnion, hend]

theorem line_not_mem_dictKeyUnion (keys : List String) : '\n' ∉ (dictKeyUnion keys).toList :=
  not_mem_dictKeyUnion (by decide) fun key _ => Json.line_not_mem_quote key

theorem line_not_mem_dictLine (t : Target) (keys : List String) : '\n' ∉ dictLine t keys := by
  have hunion := line_not_mem_dictKeyUnion keys
  have hword : '\n' ∉ (exportWord t).toList := by cases t <;> decide
  simp [dictLine, hunion, hword]

/-- What stands between two line breaks is a line. -/
theorem mem_splitOn_of_infix {l s : List Char} (hl : '\n' ∉ l) (h : '\n' :: (l ++ ['\n']) <:+: s) :
    l ∈ Text.splitOn (· == '\n') s := by
  obtain ⟨a, b, rfl⟩ := h
  rw [List.append_assoc, List.cons_append, Text.splitOn_append (by decide), List.append_assoc,
    List.singleton_append, Text.splitOn_append (by decide), splitOn_of_not_mem hl]
  exact List.mem_append_right _ (List.mem_append_left _ List.mem_cons_self)

section declarations

variable (t : Target) (types : TypeMap) (es : List Entity) (tree : RouteTree) (keys : List String)

theorem dictLine_infix_leadTexts : '\n' :: (dictLine t keys ++ ['\n']) <:+:
    ((leadTexts t types es tree (some keys)).map String.toList).flatten := by
  have hhelper : '\n' :: (dictLine t keys ++ ['\n']) <:+: (helperText t (some keys)).toList := by
    refine ⟨("\n" ++ exportWord t ++ "type json = any;\n").toList, '\n' :: ((exportWord t).toList ++
      "interface PagePagination \x7b\n\tsize: number;\n\tpage: number;\n\ttotal: number;\n".toList ++
      (indexText t).toList ++ "\x7d\n\n".toList), ?_⟩
    simp [helperText, dictText, dictLine, String.join_cons, String.join_nil]
  have hmem : helperText t (some keys) ∈ leadTexts t types es tree (some keys) := by simp [leadTexts]
  exact hhelper.trans (List.infix_of_mem_flatten (List.mem_map_of_mem hmem))

/-- The declarations have the line before they get the form of the target. -/
theorem dictLine_mem_synthesizePlain : ∃ out, synthesizePlain t types es tree (some keys) = .ok out ∧
    dictLine t keys ∈ Text.splitOn (· == '\n') out.text.toList := by
  refine ⟨_, synthesizePlain_eq t types es tree (some keys), ?_⟩
  refine mem_splitOn_of_infix (line_not_mem_dictLine t keys) ((dictLine_infix_leadTexts t types es tree keys).trans ?_)
  simp only [plainText, String.toList_append, String.toList_join, List.flatMap, List.append_assoc]
  exact (List.prefix_append _ _).isInfix

/-- Ambient declarations have the line. -/
theorem dictLine_mem_synthesize (ht : t.isCrossPlatform = false) :
    ∃ out, synthesize t types es tree (some keys) = .ok out ∧
      dictLine t keys ∈ Text.splitOn (· == '\n') out.text.toList := by
  obtain ⟨out, hok, -, htext⟩ := @synthesize_ambient types es tree (some keys) t ht
  refine ⟨out, hok, ?_⟩
  refine mem_splitOn_of_infix (line_not_mem_dictLine t keys) ((dictLine_infix_leadTexts t types es tree keys).trans ?_)
  rw [htext]
  exact List.infix_append _ _ _

end declarations

/-- **The union of keys is read back, and the layout passes over it.**  It is a row of string literals
in one way, which says the keys in order, whatever is in them.  It stands on one line, and where the scan
of a line is in code in front of it, it is in code behind it; so the layout counts no brace on the line
that declares the keys and opens no comment there. -/
theorem dictKeyUnion_readable (key : String) (keys : List String) :
    (∀ ks, ReadsAs (dictKeyUnion (key :: keys)).toList ks ↔ ks = key :: keys) ∧
    '\n' ∉ (dictKeyUnion (key :: keys)).toList ∧
    (∀ seen s, scanFrom (.code seen) ((dictKeyUnion (key :: keys)).toList ++ s) = scanFrom (.code true) s) ∧
    ∀ t, scanLine false (Text.trim (dictLine t (key :: keys))) = {} ∧
      ∀ types es tree,
        (∃ out, synthesizePlain t types es tree (some (key :: keys)) = .ok out ∧
          dictLine t (key :: keys) ∈ Text.splitOn (· == '\n') out.text.toList) ∧
        (t.isCrossPlatform = false →
          ∃ out, synthesize t types es tree (some (key :: keys)) = .ok out ∧
            dictLine t (key :: keys) ∈ Text.splitOn (· == '\n') out.text.toList) := by
  have hreads := readsAs_dictKeyUnion key keys
  refine ⟨fun ks => ⟨fun h => h.unique hreads, fun h => h ▸ hreads⟩, line_not_mem_dictKeyUnion _,
    fun seen s => scanFrom_dictKeyUnion seen key keys s, fun t => ⟨scanLine_dictLine t key keys, ?_⟩⟩
  intro types es tree
  exact ⟨dictLine_mem_synthesizePlain t types es tree _, dictLine_mem_synthesize t types es tree _⟩

/-- Keys with a bar between quotes in them, and with what ends a comment, opens a block and escapes. -/
theorem dictKeyUnion_readable_bar :
    ReadsAs (dictKeyUnion ["a\" | \"b", "*/\x7b\\"]).toList ["a\" | \"b", "*/\x7b\\"] ∧
      Target.admin.isCrossPlatform = false ∧
      ∃ out, synthesize .admin (.ofRules []) [] [] (some ["a\" | \"b", "*/\x7b\\"]) = .ok out ∧
        dictLine .admin ["a\" | \"b", "*/\x7b\\"] ∈ Text.splitOn (· == '\n') out.text.toList := by
  obtain ⟨hreads, -, -, hline⟩ := dictKeyUnion_readable "a\" | \"b" ["*/\x7b\\"]
  exact ⟨(hreads _).2 rfl, rfl, ((hline .admin).2 (.ofRules []) [] []).2 rfl⟩

end Declaration

end ClientBuild
