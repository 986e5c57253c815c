import ClientBuild.Proofs.Json.Tokens
import ClientBuild.Schema.Comments

/-!
# What is left of a text with comments

A text is a row of segments: plain characters, strings, and comments of both kinds.  Of such a row the comments are
removed and nothing else (`IsRow.strip_sourceOf`), since the scan is in the code again behind each segment, whatever
follows (`Segment.stripFrom_source`).  What is left of any text, strings and comments that nothing closes included,
is left alone by a second pass (`strip_strip`): behind a slash that is kept stands neither a slash nor a star, so no
comment begins there, and the same character stands behind it in what is left.

The tokens of a value are plain characters and strings, so a text of tokens is left as it is (`strip_of_tokens?`), and so is
what is written as a value (`strip_render`).
-/

namespace ClientBuild.Comments

open Style (StringRest IsComment CommentRest)

variable {c q : Char} {s t r : List Char}

/-! ## One step of the scan -/

/-- A character that opens nothing is kept. -/
theorem stripFrom_code (h : c ≠ '/' ∧ c ≠ '"' ∧ c ≠ '\'') (s : List Char) :
    stripFrom .code (c :: s) = c :: stripFrom .code s := by
  simp [stripFrom, h.1, h.2.1, h.2.2]

/-- A quote opens a string. -/
theorem stripFrom_quoteChar (hq : q = '"' ∨ q = '\'') (s : List Char) :
    stripFrom .code (q :: s) = q :: stripFrom (.string q false) s := by
  rcases hq with rfl | rfl
  · rfl
  · rfl

/-- A slash that opens no comment is kept. -/
theorem stripFrom_slash (h : ∀ d ∈ s.head?, d ≠ '/' ∧ d ≠ '*') :
    stripFrom .code ('/' :: s) = '/' :: stripFrom .code s := by
  cases s with
  | nil => rfl
  | cons d s =>
    obtain ⟨hslash, hstar⟩ := h d rfl
    rw [stripFrom]
    · rw [if_neg (by decide)]
    · rintro _ - heq
      exact hslash (List.cons.inj heq).1
    · rintro _ - heq
      exact hstar (List.cons.inj heq).1

/-- Unless a comment begins there, what is left begins like the text. -/
theorem head?_stripFrom (h : ∀ d ∈ s.head?, d ≠ '/') : (stripFrom .code s).head? = s.head? := by
  cases s with
  | nil => rfl
  | cons d s =>
    have hslash := h d rfl
    by_cases hq : d = '"' ∨ d = '\''
    · rw [stripFrom_quoteChar hq, List.head?_cons, List.head?_cons]
    · rw [stripFrom_code ⟨hslash, not_or.1 hq⟩, List.head?_cons, List.head?_cons]

/-! ## Removing comments again -/

/-- Where the scan is when it comes to what is left from there on. -/
def Place.again : Place → Place
  | .string q escaped => .string q escaped
  | _ => .code

@[simp]
theorem Place.again_code : Place.code.again = .code := rfl

@[simp]
theorem Place.again_line : Place.line.again = .code := rfl

@[simp]
theorem Place.again_string (q : Char) (escaped : Bool) : (Place.string q escaped).again = .string q escaped := rfl

/-- **What is left holds no comments**: no slash that was kept has come to stand in front of what makes it
the beginning of one. -/
theorem stripFrom_again (p : Place) (s : List Char) : stripFrom p.again (stripFrom p s) = stripFrom p s := by
  fun_induction stripFrom p s with
  | case1 p => cases p <;> rfl
  | case2 q escaped c s hclose ih =>
    obtain ⟨rfl, hescaped⟩ := hclose
    rw [Place.again_string, stripFrom, if_pos ⟨rfl, hescaped⟩]
    exact congrArg (c :: ·) ih
  | case3 q escaped c s hopen ih =>
    rw [Place.again_string, stripFrom, if_neg hopen]
    exact congrArg (c :: ·) ih
  | case4 s ih =>
    rw [Place.again_line, stripFrom_code (by decide)]
    exact congrArg ('\n' :: ·) ih
  | case5 c s _ ih => exact ih
  | case6 star c s _ ih => exact ih
  | case7 star c s _ ih => exact ih
  | case8 s ih => exact ih
  | case9 s ih => exact ih
  | case10 c s _ _ hq ih =>
    rw [Place.again_code, stripFrom_quoteChar hq]
    exact congrArg (c :: ·) ih
  | case11 c s hline hblock hq ih =>
    rw [Place.again_code]
    by_cases hslash : c = '/'
    · subst hslash
      have hs : ∀ d ∈ s.head?, d ≠ '/' ∧ d ≠ '*' := by
        intro d hd
        obtain ⟨s, rfl⟩ := List.head?_eq_some_iff.1 hd
        constructor
        · rintro rfl
          exact hline s rfl rfl
        · rintro rfl
          exact hblock s rfl rfl
      have hkept : ∀ d ∈ (stripFrom .code s).head?, d ≠ '/' ∧ d ≠ '*' := by
        rw [head?_stripFrom fun d hd => (hs d hd).1]
        exact hs
      rw [stripFrom_slash hkept]
      exact congrArg ('/' :: ·) ih
    · rw [stripFrom_code ⟨hslash, not_or.1 hq⟩]
      exact congrArg (c :: ·) ih

theorem strip_strip (s : List Char) : strip (strip s) = strip s := stripFrom_again .code s

/-! ## Segments of a text -/

/-- The text holds no slash and no quote. -/
def Plain (s : List Char) : Prop := ∀ c ∈ s, c ≠ '/' ∧ c ≠ '"' ∧ c ≠ '\''

instance (s : List Char) : Decidable (Plain s) := List.decidableBAll _ _

/-- A part of a text with comments. -/
inductive Segment where
  /-- Characters other than quotes and slashes. -/
  | plain (s : List Char)
  /-- A string that the quote `q` opens, with what follows that quote. -/
  | string (q : Char) (s : List Char)
  /-- A block comment. -/
  | block (s : List Char)
  /-- A line comment, with what follows its two slashes. -/
  | line (s : List Char)

namespace Segment

/-- A segment as it is written. -/
def source : Segment → List Char
  | plain s => s
  | string q s => q :: s
  | block s => s
  | line s => '/' :: '/' :: s

/-- What is left of a segment. -/
def kept : Segment → List Char
  | plain s => s
  | string q s => q :: s
  | block _ => []
  | line _ => []

/-- Strings and block comments are closed where they end, and a line comment is in one line. -/
def IsSound : Segment → Prop
  | plain s => Plain s
  | string q s => (q = '"' ∨ q = '\'') ∧ StringRest q s
  | block s => IsComment s
  | line s => '\n' ∉ s

/-- A line comment may stand at the end of a line or of the text; other segments may stand in front of anything. -/
def StandsBefore (r : List Char) : Segment → Prop
  | line _ => ∀ c ∈ r.head?, c = '\n'
  | _ => True

end Segment

/-- The text of some segments. -/
def sourceOf (gs : List Segment) : List Char := gs.flatMap Segment.source

/-- What is left of some segments. -/
def keptOf (gs : List Segment) : List Char := gs.flatMap Segment.kept

theorem sourceOf_cons (g : Segment) (gs : List Segment) : sourceOf (g :: gs) = g.source ++ sourceOf gs :=
  List.flatMap_cons

theorem keptOf_cons (g : Segment) (gs : List Segment) : keptOf (g :: gs) = g.kept ++ keptOf gs := List.flatMap_cons

/-- A row of sound segments, line comments being at the end of a line or of the text. -/
inductive IsRow : List Segment → Prop where
  | nil : IsRow []
  | cons {g : Segment} {gs : List Segment} : g.IsSound → g.StandsBefore (sourceOf gs) → IsRow gs → IsRow (g :: gs)

theorem stripFrom_plain (h : Plain s) (r : List Char) : stripFrom .code (s ++ r) = s ++ stripFrom .code r := by
  induction s with
  | nil => rfl
  | cons c s ih =>
    obtain ⟨hc, hs⟩ := List.forall_mem_cons.1 h
    rw [List.cons_append, stripFrom_code hc, ih hs, List.cons_append]

/-- The rest of a string is kept, and the scan is in the code again behind it. -/
theorem stripFrom_stringRest (hq : q ≠ '\\') (h : StringRest q t) (r : List Char) :
    stripFrom (.string q false) (t ++ r) = t ++ stripFrom .code r := by
  induction h with
  | close => simp [stripFrom]
  | escaped c _ ih => simp [stripFrom, hq.symm, ih]
  | char hne hescape _ ih => simp [stripFrom, hne, hescape, ih]

/-- A closed string is kept. -/
theorem stripFrom_quoted (hq : q = '"' ∨ q = '\'') (h : StringRest q t) (r : List Char) :
    stripFrom .code (q :: t ++ r) = q :: t ++ stripFrom .code r := by
  have hescape : q ≠ '\\' := by
    rintro rfl
    rcases hq with hq | hq
    all_goals cases hq
  rw [List.cons_append, stripFrom_quoteChar hq, stripFrom_stringRest hescape h, List.cons_append]

/-- The rest of a comment is left out. -/
theorem stripFrom_commentRest {star : Bool} (h : CommentRest star t) (r : List Char) :
    stripFrom (.block star) (t ++ r) = stripFrom .code r := by
  induction h with
  | close => simp [stripFrom]
  | char hgoes _ ih => rw [List.cons_append, stripFrom, if_neg hgoes, ih]

/-- A closed comment is left out. -/
theorem stripFrom_comment (h : IsComment t) (r : List Char) : stripFrom .code (t ++ r) = stripFrom .code r := by
  obtain ⟨u, rfl, hu⟩ := h.exists_rest
  rw [List.cons_append, List.cons_append, stripFrom]
  exact stripFrom_commentRest hu r

/-- The rest of a line is left out. -/
theorem stripFrom_line (ht : '\n' ∉ t) (hr : ∀ c ∈ r.head?, c = '\n') :
    stripFrom .line (t ++ r) = stripFrom .code r := by
  induction t with
  | nil =>
    cases r with
    | nil => rfl
    | cons c r =>
      obtain rfl : c = '\n' := hr c rfl
      rw [List.nil_append, stripFrom, if_pos rfl, stripFrom_code (by decide)]
  | cons c t ih =>
    have hc : c ≠ '\n' := fun hc => ht (hc ▸ List.mem_cons_self)
    rw [List.cons_append, stripFrom, if_neg hc, ih fun hmem => ht (List.mem_cons_of_mem _ hmem)]

/-- **A segment leaves what is kept of it**, whatever follows. -/
theorem Segment.stripFrom_source {g : Segment} (h : g.IsSound) (hr : g.StandsBefore r) :
    stripFrom .code (g.source ++ r) = g.kept ++ stripFrom .code r := by
  cases g with
  | plain s => exact stripFrom_plain h r
  | string q s => exact stripFrom_quoted h.1 h.2 r
  | block s => exact stripFrom_comment h r
  | line s => exact stripFrom_line h hr

/-- The comments of a row of segments are removed, and nothing else. -/
theorem IsRow.strip_sourceOf {gs : List Segment} (h : IsRow gs) : strip (sourceOf gs) = keptOf gs := by
  induction h with
  | nil => rfl
  | @cons g gs hg hbefore _ ih =>
    have hrest : stripFrom .code (sourceOf gs) = keptOf gs := ih
    rw [strip, sourceOf_cons, keptOf_cons, Segment.stripFrom_source hg hbefore, hrest]

/-! ## Tokens -/

/-- A token is kept, whatever follows. -/
theorem stripFrom_lexeme {x : List Char} (h : Json.Lexeme x) (r : List Char) :
    stripFrom .code (x ++ r) = x ++ stripFrom .code r := by
  cases h with
  | word hx => exact stripFrom_plain hx r
  | string hx => exact stripFrom_quoted (.inl rfl) hx r

theorem stripFrom_space (hc : Json.isSpace c = true) (s : List Char) :
    stripFrom .code (c :: s) = c :: stripFrom .code s := by
  refine stripFrom_code ?_ s
  rcases Json.isSpace_iff.1 hc with rfl | rfl | rfl | rfl
  all_goals decide

/-- **A text of tokens holds no comments**: it is left as it is. -/
theorem strip_of_tokens? {us : List Json.Token} (h : Json.tokens? s = some us) : strip s = s := by
  have hrow := Json.tokenized_of_tokens? h
  clear h
  induction hrow with
  | nil => rfl
  | @blank c s us hc _ ih =>
    rw [strip, stripFrom_space hc]
    exact congrArg (c :: ·) ih
  | @token u x s us _ hx _ _ ih =>
    rw [strip, stripFrom_lexeme hx]
    exact congrArg (x ++ ·) ih

/-- What is written as a value holds no comments. -/
theorem strip_render (v : Json) : strip (Json.render v) = Json.render v := strip_of_tokens? (Json.tokens?_render v)

end ClientBuild.Comments
