import ClientBuild.Json.Reader
import ClientBuild.Proofs.Json.NumberText

/-!
# Values, written and read

`Raw.parse?_render`: the text of a value, written without blanks, is read as `Json.raw` of it, for
every value.  A string and a key come back as they are; a number comes back as its `reading`, which
may be another number or none.

The reader works in two passes, and so does the proof.  `tokensFrom?_render` cuts the text of a
value into its tokens in front of any text that cannot go on with a number; `run_tokensOf` then runs
the reader over the tokens of a value in front of any further tokens, with any arrays and objects
open around it.
-/

namespace ClientBuild.Json

/-! ## Strings -/

/-- The codes of the control characters that are written with a letter. -/
def lettered : List Nat := [8, 9, 10, 12, 13]

/-- The part of a string that a written character is read as: control characters without a letter
of their own are named by their code. -/
def unitOf (c : Char) : StringUnit :=
  if c.toNat < 32 ∧ c.toNat ∉ lettered then .escaped c.toNat else .char c

theorem unitOf_cases (c : Char) :
    (unitOf c = .escaped c.toNat ∧ c.toNat < 32) ∨ unitOf c = .char c := by
  unfold unitOf
  split
  next h => exact .inl ⟨rfl, h.1⟩
  next => exact .inr rfl

theorem hexUnit?_hexDigit : ∀ n, n < 32 →
    hexUnit? '0' '0' (hexDigit (n / 16)) (hexDigit (n % 16)) = some n := by
  decide

theorem eq_of_toNat {c : Char} {n : Nat} (h : c.toNat = n) : c = Char.ofNat n := by
  rw [← h, Char.ofNat_toNat]

theorem stringUnits?_cons_char {c : Char} (rest : List Char) (hquote : c ≠ '"') (hslash : c ≠ '\\')
    (hcontrol : ¬ c.toNat < 32) :
    stringUnits? (c :: rest) = (stringUnits? rest).map fun (us, k) => (.char c :: us, k + 1) := by
  rw [stringUnits?]
  · rw [decide_eq_false hslash, decide_eq_false hcontrol]
    rfl
  · exact hquote
  · intro _ _ _ _ _ h _
    exact hslash h
  · intro _ _ h _
    exact hslash h

theorem stringUnits?_escapeChar (c : Char) (rest : List Char) :
    stringUnits? (escapeChar c ++ rest) =
      (stringUnits? rest).map fun (us, k) => (unitOf c :: us, k + (escapeChar c).length) := by
  by_cases hquote : c = '"'
  · subst hquote
    rfl
  by_cases hslash : c = '\\'
  · subst hslash
    rfl
  by_cases hcontrol : c.toNat < 32
  · by_cases hletter : c.toNat ∈ lettered
    · simp only [lettered, List.mem_cons, List.not_mem_nil, or_false] at hletter
      rcases hletter with h | h | h | h | h
      all_goals
        rw [eq_of_toNat h]
        rfl
    · have hunit : unitOf c = .escaped c.toNat := by simp [unitOf, hcontrol, hletter]
      have hescape : escapeChar c =
          ['\\', 'u', '0', '0', hexDigit (c.toNat / 16), hexDigit (c.toNat % 16)] := by
        unfold escapeChar
        rw [if_neg hquote, if_neg hslash, if_pos hcontrol]
        simp only [lettered, List.mem_cons, List.not_mem_nil, or_false, not_or] at hletter
        split <;> simp_all
      rw [hunit, hescape]
      simp only [List.cons_append, List.nil_append, stringUnits?,
        hexUnit?_hexDigit _ hcontrol, List.length_cons, List.length_nil]
  · have hunit : unitOf c = .char c := by simp [unitOf, hcontrol]
    have hescape : escapeChar c = [c] := by
      unfold escapeChar
      rw [if_neg hquote, if_neg hslash, if_neg hcontrol]
    rw [hunit, hescape]
    exact stringUnits?_cons_char rest hquote hslash hcontrol

theorem stringUnits?_escape (rest s : List Char) :
    stringUnits? (escape s ++ '"' :: rest) = some (s.map unitOf, (escape s).length + 1) := by
  induction s with
  | nil => rfl
  | cons c s ih =>
    rw [escape, List.append_assoc, stringUnits?_escapeChar, ih]
    simp only [Option.map_some, List.map_cons, List.length_append]
    congr 2
    omega

theorem textOfUnits?_escaped {n : Nat} (hn : n < 32) (us : List StringUnit) :
    textOfUnits? (.escaped n :: us) = (textOfUnits? us).map (Char.ofNat n :: ·) := by
  have hhigh : isSurrogate true n = false := by simp [isSurrogate]; omega
  have hlow : isSurrogate false n = false := by simp [isSurrogate]; omega
  cases us with
  | nil => simp [textOfUnits?, hhigh, hlow]
  | cons u us =>
      cases u with
      | char c => simp [textOfUnits?, hhigh, hlow]
      | escaped m => simp [textOfUnits?, hhigh, hlow]

/-- The characters of a string come back. -/
theorem textOfUnits?_unitOf (s : List Char) : textOfUnits? (s.map unitOf) = some s := by
  induction s with
  | nil => rfl
  | cons c s ih =>
    rw [List.map_cons]
    rcases unitOf_cases c with ⟨hu, hc⟩ | hu
    · rw [hu, textOfUnits?_escaped hc, ih, Char.ofNat_toNat]
      rfl
    · rw [hu, textOfUnits?, ih]
      rfl

/-- The characters that escapes are written with. -/
def escapeSigns : List Char := "\\\"bfnrtu0123456789abcdef".toList

/-- A written character stands for itself or is one of an escape; control characters are escaped. -/
theorem mem_escapeChar {c d : Char} (h : d ∈ escapeChar c) : d ∈ escapeSigns ∨ d = c ∧ 32 ≤ d.toNat := by
  have hdigits : ∀ n, n < 32 → hexDigit (n / 16) ∈ escapeSigns ∧ hexDigit (n % 16) ∈ escapeSigns := by decide
  have hletter {e : List Char} (he : e ⊆ escapeSigns) (hd : d ∈ e) : d ∈ escapeSigns ∨ d = c ∧ 32 ≤ d.toNat :=
    Or.inl (he hd)
  unfold escapeChar at h
  split at h
  next => exact hletter (by decide) h
  next =>
    split at h
    next => exact hletter (by decide) h
    next =>
      split at h
      next hcontrol =>
        split at h
        · exact hletter (by decide) h
        · exact hletter (by decide) h
        · exact hletter (by decide) h
        · exact hletter (by decide) h
        · exact hletter (by decide) h
        · obtain ⟨hhigh, hlow⟩ := hdigits c.toNat hcontrol
          have hcode : "\\u00".toList ⊆ escapeSigns := by decide
          rcases List.mem_append.1 (show d ∈ "\\u00".toList ++ [_, _] from h) with h | h
          · exact Or.inl (hcode h)
          · rcases List.mem_cons.1 h with rfl | h
            · exact Or.inl hhigh
            · exact Or.inl (List.mem_singleton.1 h ▸ hlow)
      next hcontrol =>
        obtain rfl := List.mem_singleton.1 h
        exact Or.inr ⟨rfl, Nat.le_of_not_lt hcontrol⟩

/-- A written string has the characters of the string and of escapes, and no control characters. -/
theorem mem_quote {s : String} {d : Char} (h : d ∈ quote s) :
    d ∈ escapeSigns ∨ d ∈ s.toList ∧ 32 ≤ d.toNat := by
  have hescape : ∀ s : List Char, d ∈ escape s → d ∈ escapeSigns ∨ d ∈ s ∧ 32 ≤ d.toNat := by
    intro s hs
    induction s with
    | nil => exact absurd hs List.not_mem_nil
    | cons c s ih =>
      rcases List.mem_append.1 hs with hs | hs
      · exact (mem_escapeChar hs).imp_right fun ⟨hc, hlarge⟩ => ⟨hc ▸ List.mem_cons_self, hlarge⟩
      · exact (ih hs).imp_right fun ⟨hmem, hlarge⟩ => ⟨List.mem_cons_of_mem c hmem, hlarge⟩
  rcases List.mem_append.1 h with h | h
  · rcases List.mem_cons.1 h with rfl | h
    · exact Or.inl (by decide)
    · exact hescape _ h
  · rw [List.mem_singleton.1 h]
    exact Or.inl (by decide)

theorem line_not_mem_quote (s : String) : '\n' ∉ quote s := fun h =>
  (mem_quote h).elim (fun hsign => absurd hsign (by decide)) fun hchar => absurd hchar.2 (by decide)

/-! ## Cutting into tokens -/

mutual

/-- What the text of a value spells. -/
def raw : Json → Raw
  | .null => .null
  | .bool b => .bool b
  | .number n => if n.isWritten then .number n.reading else .null
  | .string s => .string (some s)
  | .array items => .array (rawItems items)
  | .object members => .object (rawMembers members)

/-- `raw` of every item. -/
def rawItems : List Json → List Raw
  | [] => []
  | v :: vs => raw v :: rawItems vs

/-- `raw` of every member. -/
def rawMembers : List (String × Json) → List (Option String × Raw)
  | [] => []
  | (k, v) :: ms => (some k, raw v) :: rawMembers ms

end

mutual

/-- The tokens of the text of a value. -/
def tokensOf : Json → List Token
  | .array items => .openArray :: (tokensOfItems items ++ [.closeArray])
  | .object members => .openObject :: (tokensOfMembers members ++ [.closeObject])
  | .null => [.value .null]
  | .bool b => [.value (.bool b)]
  | .number n => [.value (raw (.number n))]
  | .string s => [.value (.string (some s))]

/-- The tokens of items with commas between them. -/
def tokensOfItems : List Json → List Token
  | [] => []
  | [v] => tokensOf v
  | v :: w :: vs => tokensOf v ++ .comma :: tokensOfItems (w :: vs)

/-- The tokens of members with commas between them. -/
def tokensOfMembers : List (String × Json) → List Token
  | [] => []
  | [(k, v)] => .value (.string (some k)) :: .colon :: tokensOf v
  | (k, v) :: m :: ms =>
    .value (.string (some k)) :: .colon :: tokensOf v ++ .comma :: tokensOfMembers (m :: ms)

end

theorem tokensFrom?_drop : ∀ (k : Nat) (s : List Char), k ≤ s.length →
    tokensFrom? k s = tokensFrom? 0 (s.drop k)
  | 0, _, _ => rfl
  | k + 1, [], h => absurd h (by simp)
  | k + 1, _ :: s, h => tokensFrom?_drop k s (by simpa using h)

/-- A token in front of a text is cut off. -/
theorem tokensFrom?_token {c : Char} {s rest : List Char} {t : Token}
    (hspace : isSpace c = false) (h : token? (c :: (s ++ rest)) = some (t, s.length + 1)) :
    tokensFrom? 0 (c :: (s ++ rest)) = (tokensFrom? 0 rest).map (t :: ·) := by
  simp only [tokensFrom?, hspace, Bool.false_eq_true, if_false, h, Nat.add_sub_cancel]
  rw [tokensFrom?_drop _ _ (by simp), List.drop_left]

/-- A string is read to the quote that closes it. -/
theorem token?_quote (s : String) (rest : List Char) :
    token? (quote s ++ rest) = some (.value (.string (some s)), (quote s).length) := by
  have h := stringUnits?_escape rest s.toList
  simp only [quote, token?, List.append_assoc, List.cons_append, List.nil_append, h, Option.map_some,
    textOfUnits?_unitOf, String.ofList_toList, List.length_append, List.length_cons, List.length_nil]

theorem tokensFrom?_quote (s : String) (rest : List Char) :
    tokensFrom? 0 (quote s ++ rest) =
      (tokensFrom? 0 rest).map (.value (.string (some s)) :: ·) :=
  tokensFrom?_token (by decide) (token?_quote s rest)

theorem numberText_head {s : List Char} (h : NumberText s) :
    ∃ c t, s = c :: t ∧ (c = '-' ∨ isDigit c = true) := by
  obtain ⟨hsign, ⟨hall, d, t, rfl, -⟩, -, -⟩ := h
  rcases hsign with rfl | rfl
  · exact ⟨d, _, rfl, .inr (hall d List.mem_cons_self)⟩
  · exact ⟨'-', _, rfl, .inl rfl⟩

/-- A text that starts with a sign or a digit starts with a number or with nothing. -/
theorem token?_number {c : Char} (hc : c = '-' ∨ isDigit c = true) (s : List Char) :
    token? (c :: s) = (number? (c :: s)).map fun (n, k) => (.value (.number n), k) := by
  obtain ⟨h1, h2, h3, h4, h5, h6, h7, h8, h9, h10⟩ : c ≠ '\x7b' ∧ c ≠ '\x7d' ∧ c ≠ '[' ∧ c ≠ ']' ∧
      c ≠ ':' ∧ c ≠ ',' ∧ c ≠ '"' ∧ c ≠ 'n' ∧ c ≠ 't' ∧ c ≠ 'f' := by
    refine ⟨?_, ?_, ?_, ?_, ?_, ?_, ?_, ?_, ?_, ?_⟩ <;> (rintro rfl; revert hc; decide)
  simp [token?, h1, h2, h3, h4, h5, h6, h7, h8, h9, h10]

theorem isSpace_number {c : Char} (hc : c = '-' ∨ isDigit c = true) : isSpace c = false := by
  cases hs : isSpace c with
  | false => rfl
  | true =>
      simp only [isSpace, Bool.or_eq_true, decide_eq_true_eq] at hs
      rcases hs with ((rfl | rfl) | rfl) | rfl <;> exact absurd hc (by decide)

/-- What has no text of its own is written as `null`. -/
theorem render_of_not_isWritten {n : Number} (hn : ¬n.isWritten = true) :
    n.render = "null".toList := by
  cases n with
  | integer i => exact absurd rfl hn
  | float x => exact if_neg hn

theorem tokensFrom?_number (n : Number) {rest : List Char} (hr : StopsAt goesOn rest) :
    tokensFrom? 0 (n.render ++ rest) =
      (tokensFrom? 0 rest).map (.value (raw (.number n)) :: ·) := by
  by_cases hn : n.isWritten = true
  · have hread := number?_render hn hr
    obtain ⟨c, t, ht, hc⟩ := numberText_head (numberText_render hn)
    rw [ht, List.cons_append] at hread ⊢
    simp only [raw, hn, if_true]
    exact tokensFrom?_token (isSpace_number hc) (by rw [token?_number hc, hread]; rfl)
  · rw [render_of_not_isWritten hn, raw, if_neg hn]
    exact tokensFrom?_token (s := "ull".toList) rfl rfl

/-- A mark in front of a text is cut off. -/
theorem tokensFrom?_mark {c : Char} {t : Token} (hspace : isSpace c = false)
    (h : ∀ s, token? (c :: s) = some (t, 1)) (rest : List Char) :
    tokensFrom? 0 (c :: rest) = (tokensFrom? 0 rest).map (t :: ·) :=
  tokensFrom?_token (s := []) hspace (h rest)

theorem tokensFrom?_comma (rest : List Char) :
    tokensFrom? 0 (',' :: rest) = (tokensFrom? 0 rest).map (.comma :: ·) :=
  tokensFrom?_mark rfl (fun _ => rfl) rest

theorem tokensFrom?_colon (rest : List Char) :
    tokensFrom? 0 (':' :: rest) = (tokensFrom? 0 rest).map (.colon :: ·) :=
  tokensFrom?_mark rfl (fun _ => rfl) rest

mutual

/-- **The text of a value is cut into its tokens**, in front of any text that cannot go on with a
number. -/
theorem tokensFrom?_render : ∀ (v : Json) (rest : List Char), StopsAt goesOn rest →
    tokensFrom? 0 (render v ++ rest) = (tokensFrom? 0 rest).map (tokensOf v ++ ·)
  | .null, rest, _ => tokensFrom?_token (s := "ull".toList) rfl rfl
  | .bool true, rest, _ => tokensFrom?_token (s := "rue".toList) rfl rfl
  | .bool false, rest, _ => tokensFrom?_token (s := "alse".toList) rfl rfl
  | .number n, rest, hr => tokensFrom?_number n hr
  | .string s, rest, _ => tokensFrom?_quote s rest
  | .array items, rest, _ => by
      have hitems := tokensFrom?_renderItems items (']' :: rest) (stopsAt_cons (by decide) rest)
      have hclose := tokensFrom?_mark (c := ']') (t := .closeArray) rfl (fun _ => rfl) rest
      have hopen := tokensFrom?_mark (c := '[') (t := .openArray) rfl (fun _ => rfl)
        (renderItems items ++ ']' :: rest)
      simp only [render, List.cons_append, List.append_assoc, List.nil_append]
      rw [hopen, hitems, hclose]
      simp [tokensOf, Function.comp_def]
  | .object members, rest, _ => by
      have hmembers :=
        tokensFrom?_renderMembers members ('\x7d' :: rest) (stopsAt_cons (by decide) rest)
      have hclose := tokensFrom?_mark (c := '\x7d') (t := .closeObject) rfl (fun _ => rfl) rest
      have hopen := tokensFrom?_mark (c := '\x7b') (t := .openObject) rfl (fun _ => rfl)
        (renderMembers members ++ '\x7d' :: rest)
      simp only [render, List.cons_append, List.append_assoc, List.nil_append]
      rw [hopen, hmembers, hclose]
      simp [tokensOf, Function.comp_def]

theorem tokensFrom?_renderItems : ∀ (vs : List Json) (rest : List Char), StopsAt goesOn rest →
    tokensFrom? 0 (renderItems vs ++ rest) = (tokensFrom? 0 rest).map (tokensOfItems vs ++ ·)
  | [], rest, _ => by simp [renderItems, tokensOfItems]
  | [v], rest, hr => tokensFrom?_render v rest hr
  | v :: w :: vs, rest, hr => by
      simp only [renderItems, List.append_assoc, List.cons_append]
      rw [tokensFrom?_render v _ (stopsAt_cons (by decide) _), tokensFrom?_comma,
        tokensFrom?_renderItems (w :: vs) rest hr]
      simp [tokensOfItems, Function.comp_def]

theorem tokensFrom?_renderMembers : ∀ (ms : List (String × Json)) (rest : List Char),
    StopsAt goesOn rest →
    tokensFrom? 0 (renderMembers ms ++ rest) = (tokensFrom? 0 rest).map (tokensOfMembers ms ++ ·)
  | [], rest, _ => by simp [renderMembers, tokensOfMembers]
  | [(k, v)], rest, hr => by
      simp only [renderMembers, List.append_assoc, List.cons_append]
      rw [tokensFrom?_quote, tokensFrom?_colon, tokensFrom?_render v rest hr]
      simp [tokensOfMembers, Function.comp_def]
  | (k, v) :: m :: ms, rest, hr => by
      simp only [renderMembers, List.append_assoc, List.cons_append]
      rw [tokensFrom?_quote, tokensFrom?_colon, tokensFrom?_render v _ (stopsAt_cons (by decide) _),
        tokensFrom?_comma, tokensFrom?_renderMembers (m :: ms) rest hr]
      simp [tokensOfMembers, Function.comp_def]

end

theorem tokens?_render (v : Json) : tokens? (render v) = some (tokensOf v) := by
  have := tokensFrom?_render v [] (stopsAt_nil _)
  simpa [tokens?, tokensFrom?] using this

/-! ## Reading the tokens -/

open ReaderState

/-- A value may come at the start of an array as anywhere else. -/
theorem run_valueOrClose (fs : List Frame) (v : Json) (ts : List Token) :
    run ⟨fs, .valueOrClose⟩ (tokensOf v ++ ts) = run ⟨fs, .value⟩ (tokensOf v ++ ts) := by
  cases v <;> simp [tokensOf, run, step]

theorem run_valueOrClose_items (fs : List Frame) (v : Json) (vs : List Json) (ts : List Token) :
    run ⟨fs, .valueOrClose⟩ (tokensOfItems (v :: vs) ++ ts) =
      run ⟨fs, .value⟩ (tokensOfItems (v :: vs) ++ ts) := by
  cases vs with
  | nil => exact run_valueOrClose fs v ts
  | cons w vs =>
      simp only [tokensOfItems, List.append_assoc]
      exact run_valueOrClose fs v _

/-- A key may come at the start of an object as behind a comma. -/
theorem run_keyOrClose (fs : List Frame) (m : String × Json) (ms : List (String × Json))
    (ts : List Token) :
    run ⟨fs, .keyOrClose []⟩ (tokensOfMembers (m :: ms) ++ ts) =
      run ⟨fs, .key []⟩ (tokensOfMembers (m :: ms) ++ ts) := by
  cases ms <;> rfl

mutual

/-- **The reader takes the tokens of a value for the value**, whatever is open around it and
whatever follows. -/
theorem run_tokensOf : ∀ (v : Json) (fs : List Frame) (ts : List Token),
    run ⟨fs, .value⟩ (tokensOf v ++ ts) = run (complete (raw v) fs) ts
  | .null, _, _ => rfl
  | .bool _, _, _ => rfl
  | .number _, _, _ => rfl
  | .string _, _, _ => rfl
  | .array [], fs, ts => rfl
  | .array (v :: vs), fs, ts => by
      have hopen : run ⟨fs, .value⟩ (tokensOf (.array (v :: vs)) ++ ts) =
          run ⟨.items [] :: fs, .valueOrClose⟩ (tokensOfItems (v :: vs) ++ .closeArray :: ts) := by
        simp [tokensOf, run, step, beginValue?]
      rw [hopen, run_valueOrClose_items, run_tokensOfItems (v :: vs) (List.cons_ne_nil _ _) [] fs]
      simp [run, step, raw]
  | .object [], fs, ts => rfl
  | .object (m :: ms), fs, ts => by
      have hopen : run ⟨fs, .value⟩ (tokensOf (.object (m :: ms)) ++ ts) =
          run ⟨fs, .keyOrClose []⟩ (tokensOfMembers (m :: ms) ++ .closeObject :: ts) := by
        simp [tokensOf, run, step, beginValue?]
      rw [hopen, run_keyOrClose, run_tokensOfMembers (m :: ms) (List.cons_ne_nil _ _) [] fs]
      simp [run, step, raw]

theorem run_tokensOfItems : ∀ (vs : List Json), vs ≠ [] → ∀ (done : List Raw) (fs : List Frame)
    (ts : List Token),
    run ⟨.items done :: fs, .value⟩ (tokensOfItems vs ++ ts) =
      run ⟨.items ((rawItems vs).reverse ++ done) :: fs, .commaOrClose⟩ ts
  | [], h, _, _, _ => absurd rfl h
  | [v], _, done, fs, ts => run_tokensOf v (.items done :: fs) ts
  | v :: w :: vs, _, done, fs, ts => by
      simp only [tokensOfItems, List.append_assoc, List.cons_append]
      rw [run_tokensOf v, complete]
      have hcomma : run ⟨.items (raw v :: done) :: fs, .commaOrClose⟩
          (.comma :: (tokensOfItems (w :: vs) ++ ts)) =
          run ⟨.items (raw v :: done) :: fs, .value⟩ (tokensOfItems (w :: vs) ++ ts) := rfl
      rw [hcomma, run_tokensOfItems (w :: vs) (List.cons_ne_nil _ _) (raw v :: done) fs ts]
      simp [rawItems]

theorem run_tokensOfMembers : ∀ (ms : List (String × Json)), ms ≠ [] →
    ∀ (done : List (Option String × Raw)) (fs : List Frame) (ts : List Token),
    run ⟨fs, .key done⟩ (tokensOfMembers ms ++ ts) =
      run ⟨.members ((rawMembers ms).reverse ++ done) none :: fs, .commaOrClose⟩ ts
  | [], h, _, _, _ => absurd rfl h
  | [(k, v)], _, done, fs, ts => run_tokensOf v (.members done (some k) :: fs) ts
  | (k, v) :: m :: ms, _, done, fs, ts => by
      simp only [tokensOfMembers, List.append_assoc, List.cons_append]
      have hkey : run ⟨fs, .key done⟩ (.value (.string (some k)) :: .colon ::
          (tokensOf v ++ (.comma :: (tokensOfMembers (m :: ms) ++ ts)))) =
          run ⟨.members done (some k) :: fs, .value⟩
            (tokensOf v ++ (.comma :: (tokensOfMembers (m :: ms) ++ ts))) := rfl
      rw [hkey, run_tokensOf v, complete]
      have hcomma : run ⟨.members ((some k, raw v) :: done) none :: fs, .commaOrClose⟩
          (.comma :: (tokensOfMembers (m :: ms) ++ ts)) =
          run ⟨fs, .key ((some k, raw v) :: done)⟩ (tokensOfMembers (m :: ms) ++ ts) := rfl
      rw [hcomma, run_tokensOfMembers (m :: ms) (List.cons_ne_nil _ _) ((some k, raw v) :: done) fs ts]
      simp [rawMembers]

end

/-- **The text of a value is read as what it spells.** -/
theorem parse?_render (v : Json) : Raw.parse? (render v) = some (raw v) := by
  have := run_tokensOf v [] []
  simp only [List.append_nil] at this
  simp [Raw.parse?, tokens?_render, Raw.ofTokens?, start, this, complete, run]

end ClientBuild.Json
