import ClientBuild.Declaration.Layout
import ClientBuild.Proofs.Json.Tokens

/-!
# Texts that can be laid out

The layout reads line by line and knows only the depth and whether a comment is open in front of a
line.  `Readable` reads a whole text at once: from a depth on, no brace of the code closes more than is
open, no string reaches the end of its line, and everything is closed at the end.  Such a text can be
laid out (`exists_layout`).
-/

namespace ClientBuild.Declaration

/-- A character that is more than itself to a reader of declarations, or would be in a string. -/
def isMark (c : Char) : Bool :=
  c == '{' || c == '}' || c == '"' || c == '\'' || c == '\x60' || c == '\\' || c == '/'

/-- Has the text no braces, quotes, backslashes and slashes? -/
def Unmarked (s : List Char) : Prop := ∀ c ∈ s, isMark c = false

instance (s : List Char) : Decidable (Unmarked s) := List.decidableBAll _ s

/-- Where a reader of a whole text is. -/
inductive Place where
  | code
  /-- Behind a slash in code. -/
  | slash
  /-- In a comment, behind a star or not. -/
  | comment (star : Bool)
  | string (quote : Char) (escaped : Bool)
deriving DecidableEq

/-- Does the text close what is open in front of it and in it?  Code has a slash only at the beginning
of a comment. -/
def Readable : Place → Nat → List Char → Prop
  | p, d, [] => p = .code ∧ d = 0
  | .code, d, c :: s =>
    if c = '/' then Readable .slash d s
    else if c = '"' ∨ c = '\'' ∨ c = '\x60' then Readable (.string c false) d s
    else if c = '{' then Readable .code (d + 1) s
    else if c = '}' then 0 < d ∧ Readable .code (d - 1) s
    else Readable .code d s
  | .slash, d, c :: s => c = '*' ∧ Readable (.comment false) d s
  | .comment star, d, c :: s =>
    if star = true ∧ c = '/' then Readable .code d s else Readable (.comment (c == '*')) d s
  | .string q escaped, d, c :: s =>
    if c = '\n' then False
    else if escaped then Readable (.string q false) d s
    else if c = '\\' then Readable (.string q true) d s
    else if c = q then Readable .code d s
    else Readable (.string q false) d s

attribute [local simp] Readable

variable {d : Nat} {s a : List Char} {c : Char}

/-! ## Code -/

theorem readable_nil : Readable .code 0 [] := ⟨rfl, rfl⟩

theorem readable_code (hc : isMark c = false) : Readable .code d (c :: s) ↔ Readable .code d s := by
  simp only [isMark, Bool.or_eq_false_iff, beq_eq_false_iff_ne] at hc
  simp [Readable, hc]

theorem readable_open : Readable .code d ('{' :: s) ↔ Readable .code (d + 1) s := by simp [Readable]

theorem readable_close : Readable .code (d + 1) ('}' :: s) ↔ Readable .code d s := by simp [Readable]

theorem readable_begin : Readable .code d ('/' :: '*' :: s) ↔ Readable (.comment false) d s := by
  simp [Readable]

/-- Code without marks does nothing. -/
theorem Unmarked.readable (ha : Unmarked a) : Readable .code d (a ++ s) ↔ Readable .code d s := by
  induction a with
  | nil => exact Iff.rfl
  | cons c a ih =>
    obtain ⟨hc, ha⟩ := List.forall_mem_cons.1 ha
    rw [List.cons_append, readable_code hc, ih ha]

theorem isMark_of_blank (hc : Text.isBlank c = true) : isMark c = false := by
  have hne : ∀ m, Text.isBlank m = false → c ≠ m := by
    rintro m hm rfl
    exact Bool.noConfusion (hc.symm.trans hm)
  simp [isMark, hne _ (show Text.isBlank '{' = false by decide),
    hne _ (show Text.isBlank '}' = false by decide), hne _ (show Text.isBlank '"' = false by decide),
    hne _ (show Text.isBlank '\'' = false by decide), hne _ (show Text.isBlank '\x60' = false by decide),
    hne _ (show Text.isBlank '\\' = false by decide), hne _ (show Text.isBlank '/' = false by decide)]

theorem unmarked_of_blanks (ha : ∀ c ∈ a, Text.isBlank c = true) : Unmarked a :=
  fun c hc => isMark_of_blank (ha c hc)

/-! ## Comments -/

theorem readable_comment {star : Bool} (hc : c ≠ '/') :
    Readable (.comment star) d (c :: s) ↔ Readable (.comment (c == '*')) d s := by
  simp [Readable, hc]

theorem readable_end : Readable (.comment true) d ('/' :: s) ↔ Readable .code d s := by simp [Readable]

/-- Without a slash behind it, a star in a comment does nothing. -/
theorem readable_star {star : Bool} (hc : c ≠ '/') :
    Readable (.comment star) d (c :: s) ↔ Readable (.comment false) d (c :: s) := by
  rw [readable_comment hc, readable_comment hc]

/-- A text without the end of a comment does nothing in a comment. -/
theorem readable_comment_append {e : Char} (he : e ≠ '/') :
    ∀ {a : List Char} {star : Bool}, ¬ ['*', '/'] <:+: (if star then ['*'] else []) ++ a →
      (Readable (.comment star) d (a ++ e :: s) ↔ Readable (.comment false) d (e :: s))
  | [], star, _ => readable_star he
  | c :: a, star, h => by
    have hstep : Readable (.comment star) d (c :: (a ++ e :: s)) ↔
        Readable (.comment (c == '*')) d (a ++ e :: s) := by
      simp only [Readable]
      rw [if_neg]
      rintro ⟨rfl, rfl⟩
      exact h ⟨[], a, rfl⟩
    rw [List.cons_append, hstep]
    refine readable_comment_append he fun hinside => h ?_
    refine (List.IsInfix.trans hinside ?_)
    by_cases hc : c = '*'
    · subst hc
      exact (List.suffix_append _ _).isInfix
    · have hc : (c == '*') = false := by simpa using hc
      rw [hc]
      exact ((List.suffix_cons c a).trans (List.suffix_append _ _)).isInfix

/-! ## Strings -/

theorem readable_string {q : Char} (hline : c ≠ '\n') (hslash : c ≠ '\\') (hquote : c ≠ q) :
    Readable (.string q false) d (c :: s) ↔ Readable (.string q false) d s := by
  simp [Readable, hline, hslash, hquote]

theorem readable_escaped {q : Char} (hline : c ≠ '\n') :
    Readable (.string q false) d ('\\' :: c :: s) ↔ Readable (.string q false) d s := by
  simp [Readable, hline]

/-- A string on one line is passed over to the quote that closes it. -/
theorem readable_stringRest {q : Char} {t : List Char} (hq : q ≠ '\\') (h : Style.StringRest q t) (hline : '\n' ∉ t) :
    Readable (.string q false) d (t ++ s) ↔ Readable .code d s := by
  induction h with
  | close =>
    have hquote : q ≠ '\n' := fun heq => hline (heq ▸ List.mem_singleton_self q)
    simp [Readable, hq, hquote]
  | escaped c _ ih =>
    simp only [List.mem_cons, not_or] at hline
    rw [List.cons_append, List.cons_append, readable_escaped (Ne.symm hline.2.1), ih hline.2.2]
  | char hquote hslash _ ih =>
    simp only [List.mem_cons, not_or] at hline
    rw [List.cons_append, readable_string (Ne.symm hline.1) hslash hquote, ih hline.2]

/-- A quoted string does nothing, whatever is in it. -/
theorem readable_quote (key : String) : Readable .code d (Json.quote key ++ s) ↔ Readable .code d s := by
  have hline : '\n' ∉ Json.escape key.toList ++ ['"'] := fun h => Json.line_not_mem_quote key (List.mem_cons_of_mem _ h)
  refine Iff.trans ?_ (readable_stringRest (by decide) (Json.stringRest_escape key.toList) hline)
  simp [Json.quote, Readable]

/-- A string does not reach the end of its line. -/
theorem not_readable_string {q : Char} (hq : Text.isBlank q = false) :
    ∀ {a : List Char} {escaped : Bool}, (∀ c ∈ a, Text.isBlank c = true) →
      ¬ Readable (.string q escaped) d (a ++ '\n' :: s)
  | [], escaped, _ => by simp [Readable]
  | c :: a, escaped, ha => by
    obtain ⟨hc, ha⟩ := List.forall_mem_cons.1 ha
    have hslash : c ≠ '\\' := by
      rintro rfl
      exact absurd hc (by decide)
    have hquote : c ≠ q := by
      rintro rfl
      exact Bool.noConfusion (hc.symm.trans hq)
    have hrest : ∀ escaped, ¬ Readable (.string q escaped) d (a ++ '\n' :: s) :=
      fun escaped => not_readable_string hq ha
    simp [Readable, hslash, hquote, hrest]

/-! ## Lines -/

/-- Where a reader of a whole text is when the scan of a line is there. -/
def LinePlace.place : LinePlace → Place
  | .code _ => .code
  | .string q escaped => .string q escaped
  | .comment _ => .comment false

/-- Has the line had code before that is no closing brace? -/
def LinePlace.seen : LinePlace → Bool
  | .code seen => seen
  | .string _ _ => true
  | .comment seen => seen

/-- Is a string that the scan is in one between quotes? -/
def LinePlace.Quoted : LinePlace → Prop
  | .string q _ => Text.isBlank q = false
  | _ => True

/-- Where a reader is in front of a line. -/
def startOf (inComment : Bool) : Place := if inComment then .comment false else .code

/-- Code behind other code closes nothing in front of it. -/
theorem leading_of_seen {p : LinePlace} (hp : p.seen = true) (line : List Char) :
    (scanFrom p line).leading = 0 := by
  fun_induction scanFrom p line with
  | case12 seen s r _ _ _ ih => exact ih rfl
  | case13 seen s r _ _ _ _ ih =>
    have hseen : seen = true := hp
    rw [if_pos hseen]
    exact ih hp
  | _ => simp_all [LinePlace.seen]

/-- Can what a line did be done at a depth, in front of a rest that closes all that is open then? -/
def LineScan.Fits (r : LineScan) (d : Nat) (rest : List Char) : Prop :=
  r.leading ≤ d ∧ ∃ d' : Nat, (d' : Int) = d + r.delta ∧ Readable (startOf r.inComment) d' rest

/-- A text behind a line. -/
def LineEnd (rest : List Char) (s : List Char) : Prop :=
  ∃ blanks, (∀ c ∈ blanks, Text.isBlank c = true) ∧ s = blanks ++ '\n' :: rest

theorem readable_blanks {inComment : Bool} (ha : ∀ c ∈ a, Text.isBlank c = true) :
    Readable (startOf inComment) d (a ++ s) ↔ Readable (startOf inComment) d s := by
  cases inComment with
  | false => exact (unmarked_of_blanks ha).readable
  | true =>
    induction a with
    | nil => exact Iff.rfl
    | cons c a ih =>
      obtain ⟨hc, ha⟩ := List.forall_mem_cons.1 ha
      have hslash : c ≠ '/' := by
        rintro rfl
        exact absurd hc (by decide)
      have hstar : (c == '*') = false := by
        rw [beq_eq_false_iff_ne]
        rintro rfl
        exact absurd hc (by decide)
      rw [List.cons_append, ← ih ha]
      simp only [startOf, if_true]
      rw [readable_comment hslash, hstar]

theorem LineEnd.readable {rest : List Char} {inComment : Bool} (h : LineEnd rest s) :
    Readable (startOf inComment) d s ↔ Readable (startOf inComment) d rest := by
  obtain ⟨blanks, hblanks, rfl⟩ := h
  have hline : ∀ c ∈ blanks ++ ['\n'], Text.isBlank c = true := by
    intro c hc
    rcases List.mem_append.1 hc with hc | hc
    · exact hblanks c hc
    · rw [List.mem_singleton.1 hc]
      decide
  refine Iff.trans ?_ (readable_blanks hline)
  rw [List.append_assoc, List.singleton_append]

theorem LineEnd.exists_cons {rest : List Char} (h : LineEnd rest s) :
    ∃ c t, s = c :: t ∧ Text.isBlank c = true := by
  obtain ⟨blanks, hblanks, rfl⟩ := h
  cases blanks with
  | nil => exact ⟨'\n', rest, rfl, by decide⟩
  | cons c blanks => exact ⟨c, blanks ++ '\n' :: rest, rfl, hblanks c List.mem_cons_self⟩

theorem LineEnd.not_string {rest : List Char} {q : Char} {escaped : Bool}
    (hq : Text.isBlank q = false) (h : LineEnd rest s) : ¬ Readable (.string q escaped) d s := by
  obtain ⟨blanks, hblanks, rfl⟩ := h
  exact not_readable_string hq hblanks

/-- **What a line does fits a text that closes.** -/
theorem fits_scanFrom {tail rest : List Char} (htail : LineEnd rest tail) {p : LinePlace}
    (hp : p.Quoted) (line : List Char) (h : Readable p.place d (line ++ tail)) :
    (scanFrom p line).Fits d rest := by
  obtain ⟨b, t, htail', hb⟩ := htail.exists_cons
  have hbslash : b ≠ '/' := by
    rintro rfl
    exact absurd hb (by decide)
  have hbstar : b ≠ '*' := by
    rintro rfl
    exact absurd hb (by decide)
  fun_induction scanFrom p line generalizing d with
  | case1 seen => exact ⟨Nat.zero_le d, d, by simp, (@LineEnd.readable _ _ _ true htail).1 h⟩
  | case2 p hcomment =>
    cases p with
    | code seen => exact ⟨Nat.zero_le d, d, by simp, (@LineEnd.readable _ _ _ false htail).1 h⟩
    | string q escaped => exact absurd h (htail.not_string hp)
    | comment seen => exact absurd rfl (hcomment seen)
  | case3 seen s ih =>
    refine ih trivial ?_
    rwa [LinePlace.place, List.cons_append, List.cons_append, readable_comment (by decide),
      beq_self_eq_true, readable_end] at h
  | case4 seen c s hends ih =>
    have hnext : ∃ e u, s ++ tail = e :: u ∧ (c = '*' → e ≠ '/') := by
      cases s with
      | nil => exact ⟨b, t, htail', fun _ => hbslash⟩
      | cons e s => exact ⟨e, s ++ tail, rfl, fun hc he => hends s hc (by rw [he])⟩
    obtain ⟨e, u, heq, hne⟩ := hnext
    refine ih trivial ?_
    have h : Readable (.comment (c == '*')) d (e :: u) := by
      rw [← heq]
      simpa [LinePlace.place, Readable] using h
    rw [heq]
    by_cases hc : c = '*'
    · exact (readable_star (hne hc)).1 h
    · have hc : (c == '*') = false := by simpa using hc
      rwa [hc] at h
  | case5 q c s ih => exact ih hp (by simp_all [LinePlace.place, Readable])
  | case6 q escaped s _ ih => exact ih hp (by simp_all [LinePlace.place, Readable])
  | case7 escaped c s _ _ ih => exact ih trivial (by simp_all [LinePlace.place, Readable])
  | case8 q escaped c s _ _ _ ih => exact ih hp (by simp_all [LinePlace.place, Readable])
  | case9 => simp [LinePlace.place, Readable] at h
  | case10 seen s ih => exact ih trivial (readable_begin.1 h)
  | case11 seen c s _ _ hquote ih =>
    have hblank : Text.isBlank c = false := by
      rcases hquote with rfl | rfl | rfl <;> decide
    refine ih hblank ?_
    have hslash : c ≠ '/' := by
      rcases hquote with rfl | rfl | rfl <;> decide
    simpa [LinePlace.place, Readable, hslash, hquote] using h
  | case12 =>
    rename_i seen s r _ _ _ ih
    obtain ⟨_, d', hd', hrest⟩ := ih trivial (readable_open.1 h)
    have hd' : (d' : Int) = (d + 1 : Nat) + r.delta := hd'
    have hleading : r.leading = 0 := leading_of_seen rfl s
    refine ⟨?_, d', ?_, hrest⟩
    · exact hleading ▸ Nat.zero_le d
    · show (d' : Int) = d + (r.delta + 1)
      omega
  | case13 =>
    rename_i seen s r _ _ _ _ ih
    cases d with
    | zero => simp [LinePlace.place, Readable] at h
    | succ d =>
      obtain ⟨hleading, d', hd', hrest⟩ := ih hp (readable_close.1 h)
      have hleading : r.leading ≤ d := hleading
      have hd' : (d' : Int) = d + r.delta := hd'
      refine ⟨?_, d', ?_, hrest⟩
      · show (if seen = true then r.leading else r.leading + 1) ≤ d + 1
        split <;> omega
      · show (d' : Int) = (d + 1 : Nat) + (r.delta - 1)
        omega
  | case14 seen c s _ _ _ _ _ hblank ih =>
    refine ih trivial ((readable_code ?_).1 h)
    rcases hblank with rfl | rfl <;> decide
  | case15 seen c s hslash hbegin hquote hopen hclose _ ih =>
    refine ih trivial ?_
    simp only [not_or] at hquote
    by_cases hc : c = '/'
    · subst hc
      cases s with
      | nil =>
        rw [List.cons_append, htail', LinePlace.place] at h
        simp [Readable, hbstar] at h
      | cons e s =>
        have he : e ≠ '*' := fun he => hbegin s rfl (by rw [he])
        simp [LinePlace.place, Readable, he] at h
    · simpa [LinePlace.place, Readable, hc, hquote, hopen, hclose] using h

/-! ## Whole texts -/

/-- The line of a text that closes is laid out, and the rest closes behind it. -/
theorem exists_next {st : LayoutState} {line rest : List Char} (hdepth : st.depth = d)
    (h : Readable (startOf st.inComment) d (line ++ '\n' :: rest)) (number : Nat) :
    ∃ (next : LayoutState) (d' : Nat), next.depth = d' ∧ Readable (startOf next.inComment) d' rest ∧
      ∀ lines out, layoutFrom next (number + 1) lines = .ok out →
        ∃ out', layoutFrom st number (line :: lines) = .ok out' := by
  obtain ⟨l, r, hl, hr, hline⟩ := Text.exists_eq_append_trim line
  have hend : LineEnd rest (r ++ '\n' :: rest) := ⟨r, hr, rfl⟩
  rw [hline, List.append_assoc, List.append_assoc, readable_blanks hl] at h
  cases hcore : Text.trim line with
  | nil =>
    rw [hcore, List.nil_append, hend.readable] at h
    refine ⟨st.blank, d, hdepth, h, fun lines out hout => ⟨out, ?_⟩⟩
    rw [layoutFrom, hcore]
    exact hout
  | cons c core =>
    have hfits : (scanLine st.inComment (c :: core)).Fits d rest := by
      rw [hcore] at h
      rw [scanLine]
      cases hplace : st.inComment with
      | false =>
        rw [hplace] at h
        exact @fits_scanFrom _ _ _ hend (.code false) trivial _ h
      | true =>
        rw [hplace] at h
        exact @fits_scanFrom _ _ _ hend (.comment false) trivial _ h
    obtain ⟨hleading, d', hd', hrest⟩ := hfits
    refine ⟨st.next (scanLine st.inComment (c :: core)), d', ?_, hrest, fun lines out hout => ?_⟩
    · rw [hd', ← hdepth]
      rfl
    · rw [layoutFrom, hcore]
      simp only [List.isEmpty_cons, Bool.false_eq_true, if_false]
      rw [if_neg (by omega), if_neg (by omega), hout]
      exact ⟨_, rfl⟩

/-- A text that closes can be laid out in any state of that depth. -/
theorem exists_layoutFrom (text : List Char) {st : LayoutState} (number : Nat) {d : Nat}
    (hdepth : st.depth = d) (h : Readable (startOf st.inComment) d (text ++ ['\n'])) :
    ∃ out, layoutFrom st number (Text.splitOn (· == '\n') text) = .ok out := by
  by_cases hmem : '\n' ∈ text
  · obtain ⟨line, rest, rfl, hline⟩ := List.eq_append_cons_of_mem hmem
    rw [List.append_assoc, List.cons_append] at h
    obtain ⟨next, d', hnext, hrest, hlast⟩ := exists_next hdepth h number
    have hlines : Text.splitOn (· == '\n') line = [line] :=
      Text.splitOn_of_forall fun c hc => by
        rw [beq_eq_false_iff_ne]
        rintro rfl
        exact hline hc
    have hlength : rest.length < (line ++ '\n' :: rest).length := by simp; omega
    obtain ⟨out, hout⟩ := exists_layoutFrom rest (number + 1) hnext hrest
    rw [Text.splitOn_append (by decide), hlines]
    exact hlast _ out hout
  · obtain ⟨next, d', hnext, hrest, hlast⟩ := exists_next hdepth h number
    have hlines : Text.splitOn (· == '\n') text = [text] :=
      Text.splitOn_of_forall fun c hc => by
        rw [beq_eq_false_iff_ne]
        rintro rfl
        exact hmem hc
    obtain ⟨hcode, rfl⟩ : startOf next.inComment = .code ∧ d' = 0 := by
      simpa only [Readable] using hrest
    have hcomment : next.inComment = false := by
      cases hin : next.inComment with
      | false => rfl
      | true =>
        rw [hin] at hcode
        cases hcode
    rw [hlines]
    exact hlast [] [] (by rw [layoutFrom, if_pos ⟨by simpa using hnext, by simp [hcomment]⟩])
termination_by text.length

/-- **A text that closes can be laid out.** -/
theorem exists_layout {text : List Char} (h : Readable .code 0 (text ++ ['\n'])) :
    ∃ out, layout text = .ok out :=
  exists_layoutFrom text 1 rfl h

end ClientBuild.Declaration
