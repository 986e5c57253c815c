import ClientBuild.Proofs.Json.ValueText
import ClientBuild.Proofs.Style.Items

/-!
# Tokens in their texts

What is read of a token is a part of the text (`token?_takes`), and it is read the same in front of another
text.  Only a number could go on there; but where all of a text is cut into tokens, what stands behind a number is
no digit, and neither a point nor the mark of an exponent begins a token.  So one token behind the other is
cut off (`tokens?_append`), whatever blanks stand between them, and a text that is cut into tokens is a row of them
(`tokenized_of_tokens?`).
-/

namespace ClientBuild.Json

open Style (StringRest)

/-! ## Numbers -/

/-- A character of a number. -/
def isNumberChar (c : Char) : Bool := isDigit c || "+-.eE".toList.contains c

/-- Behind `k` characters, `read` takes a part of the text up to `n` characters in all, and the same part in front
of anything that a number could not go on with. -/
def Takes {α : Type} (read : List Char → Option (α × Nat)) (k : Nat) (s : List Char) (v : α) (n : Nat) : Prop :=
  ∃ x r, s = x ++ r ∧ n = k + x.length ∧ (∀ c ∈ x, isNumberChar c = true) ∧ StopsAt isDigit r ∧
    ∀ r', StopsAt goesOn r' → read (x ++ r') = some (v, n)

variable {s t : List Char} {n k : Nat} {c : Char}

theorem exists_digits (s : List Char) :
    ∃ ds r, s = ds ++ r ∧ (∀ c ∈ ds, isDigit c = true) ∧ StopsAt isDigit r := by
  refine ⟨s.takeWhile isDigit, s.dropWhile isDigit, List.takeWhile_append_dropWhile.symm, ?_, ?_⟩
  · exact List.all_eq_true.1 List.all_takeWhile
  · intro c t hc
    have hhead := List.head?_dropWhile_not isDigit s
    rw [hc] at hhead
    simpa using hhead

theorem isNumberChar_of_isDigit (h : isDigit c = true) : isNumberChar c = true := by
  rw [isNumberChar, h, Bool.true_or]

/-- A text that stops at digits still does so when what follows is exchanged for another one that does. -/
theorem StopsAt.exchange {p : Char → Bool} {x r r' : List Char} (h : StopsAt p (x ++ r)) (hr : StopsAt p r') :
    StopsAt p (x ++ r') := by
  cases x with
  | nil => exact hr
  | cons c x => exact stopsAt_cons (h c _ rfl) _

theorem Takes.cons {α : Type} {read : List Char → Option (α × Nat)} {v : α} (hc : isNumberChar c = true)
    (h : Takes (fun t => read (c :: t)) (k + 1) t v n) : Takes read k (c :: t) v n := by
  obtain ⟨x, r, rfl, hn, hx, hr, hread⟩ := h
  refine ⟨c :: x, r, rfl, ?_, List.forall_mem_cons.2 ⟨hc, hx⟩, hr, hread⟩
  rw [hn, List.length_cons]
  omega

theorem exists_sign (s : List Char) : ∃ sign t, s = sign ++ t ∧
    (sign = [] ∧ (∀ c ∈ t.head?, c ≠ '-' ∧ c ≠ '+') ∨ sign = ['+'] ∨ sign = ['-']) := by
  cases s with
  | nil => exact ⟨[], [], rfl, .inl ⟨rfl, fun c hc => by cases hc⟩⟩
  | cons c t =>
    by_cases hminus : c = '-'
    · exact ⟨['-'], t, by rw [hminus]; rfl, .inr (.inr rfl)⟩
    · by_cases hplus : c = '+'
      · exact ⟨['+'], t, by rw [hplus]; rfl, .inr (.inl rfl)⟩
      · refine ⟨[], c :: t, rfl, .inl ⟨rfl, fun d hd => ?_⟩⟩
        cases hd
        exact ⟨hminus, hplus⟩

/-- An exponent has digits, and is read to the last of them. -/
theorem exponentPart?_takes {e : Int} (h : exponentPart? s = some (e, n)) : Takes exponentPart? 0 s e n := by
  obtain ⟨sign, t, rfl, hsign⟩ := exists_sign s
  obtain ⟨ds, r, rfl, hds, hr⟩ := exists_digits t
  by_cases hne : ds = []
  · subst hne
    have htake : ([] ++ r).takeWhile isDigit = [] := takeWhile_digits hr (List.forall_mem_nil _)
    rw [List.nil_append] at htake
    rcases hsign with ⟨rfl, hhead⟩ | rfl | rfl
    · cases r with
      | nil => cases h
      | cons c r =>
        obtain ⟨hminus, hplus⟩ := hhead c rfl
        simp [exponentPart?, hminus, hplus, hr c r rfl] at h
    · simp [exponentPart?, htake] at h
    · simp [exponentPart?, htake] at h
  · have hcases : sign = [] ∨ sign = ['+'] ∨ sign = ['-'] := hsign.imp_left And.left
    obtain ⟨e', hread⟩ := exponentPart?_append hcases hne hds
    have hhere := hread r hr
    rw [List.append_assoc, h] at hhere
    cases hhere
    refine ⟨sign ++ ds, r, by rw [List.append_assoc], by simp, ?_, hr, fun r' hr' => hread r' hr'.digits⟩
    refine List.forall_mem_append.2 ⟨fun c hc => ?_, fun c hc => isNumberChar_of_isDigit (hds c hc)⟩
    rcases hcases with rfl | rfl | rfl
    · cases hc
    · rw [List.mem_singleton.1 hc]
      decide
    · rw [List.mem_singleton.1 hc]
      decide

section Float

variable {negative : Bool} {scan : NumberScan} {v : Option Number}

/-- Behind the mark of an exponent, the exponent is read. -/
theorem finishFloat?_mark (hc : c = 'e' ∨ c = 'E') (h : finishFloat? negative scan (c :: t) = some (v, n)) :
    Takes (fun t => finishFloat? negative scan (c :: t)) (scan.length + 1) t v n := by
  have hmark (t : List Char) : finishFloat? negative scan (c :: t) = (exponentPart? t).map fun p =>
      ((ofParts? negative scan.significand (scan.exponent + p.1)).map .float, scan.length + 1 + p.2) := by
    simp only [finishFloat?]
    rw [if_pos (by simpa using hc)]
  rw [hmark] at h
  obtain ⟨⟨e, m⟩, hexponent, heq⟩ := Option.map_eq_some_iff.1 h
  cases heq
  obtain ⟨x, r, rfl, rfl, hx, hr, hread⟩ := exponentPart?_takes hexponent
  refine ⟨x, r, rfl, by omega, hx, hr, fun r' hr' => ?_⟩
  simp only [hmark, hread r' hr', Option.map_some]

/-- Without the mark of an exponent nothing is read. -/
theorem finishFloat?_plain (hs : ∀ c ∈ s.head?, c ≠ 'e' ∧ c ≠ 'E') : finishFloat? negative scan s =
    some ((ofParts? negative scan.significand (scan.exponent + 0)).map .float, scan.length) := by
  cases s with
  | nil => rfl
  | cons c t =>
    obtain ⟨he, hE⟩ := hs c rfl
    simp only [finishFloat?]
    rw [if_neg (by simp [he, hE])]

theorem StopsAt.not_mark (h : StopsAt goesOn s) : ∀ c ∈ s.head?, c ≠ 'e' ∧ c ≠ 'E' := by
  intro c hc
  obtain ⟨t, rfl⟩ := List.head?_eq_some_iff.1 hc
  have hgoes := h c t rfl
  constructor
  · rintro rfl
    cases hgoes
  · rintro rfl
    cases hgoes

theorem finishFloat?_takes (hs : StopsAt isDigit s) (h : finishFloat? negative scan s = some (v, n)) :
    Takes (finishFloat? negative scan) scan.length s v n := by
  have hplain (hmark : ∀ c ∈ s.head?, c ≠ 'e' ∧ c ≠ 'E') : Takes (finishFloat? negative scan) scan.length s v n := by
    rw [finishFloat?_plain hmark] at h
    cases h
    exact ⟨[], s, rfl, rfl, List.forall_mem_nil _, hs, fun r' hr' => finishFloat?_plain hr'.not_mark⟩
  cases s with
  | nil => exact hplain fun c hc => by cases hc
  | cons c t =>
    by_cases hc : c = 'e' ∨ c = 'E'
    · refine (finishFloat?_mark hc h).cons ?_
      rcases hc with rfl | rfl
      all_goals decide
    · refine hplain fun d hd => ?_
      cases hd
      exact not_or.1 hc

/-- Behind the whole digits a fraction and an exponent are read. -/
theorem afterWhole_takes (hs : StopsAt isDigit s) (h : afterWhole negative scan s = some (v, n)) :
    Takes (afterWhole negative scan) scan.length s v n := by
  have hmark {c : Char} {t : List Char} (hc : c = 'e' ∨ c = 'E')
      (h : afterWhole negative scan (c :: t) = some (v, n)) :
      Takes (afterWhole negative scan) scan.length (c :: t) v n := by
    rcases hc with rfl | rfl
    · exact (finishFloat?_mark (.inl rfl) h).cons (by decide)
    · exact (finishFloat?_mark (.inr rfl) h).cons (by decide)
  cases s with
  | nil =>
    obtain ⟨v', hread⟩ := afterWhole_plain negative scan
    have hhere := hread [] (stopsAt_nil _)
    rw [h] at hhere
    cases hhere
    exact ⟨[], [], rfl, rfl, List.forall_mem_nil _, hs, hread⟩
  | cons c t =>
    by_cases hpoint : c = '.'
    · subst hpoint
      obtain ⟨ds, r, rfl, hds, hr⟩ := exists_digits t
      simp only [afterWhole, fraction_append hr _ _ hds] at h
      split at h
      next => cases h
      next hlength =>
        obtain ⟨x, r', rfl, hn, hx, hr', hread⟩ := finishFloat?_takes hr h
        have hsize := fraction_length false { scan with length := scan.length + 1 } hds
        refine ⟨'.' :: (ds ++ x), r', by simp, ?_, ?_, hr', fun r'' hr'' => ?_⟩
        · rw [hn, hsize]
          simp only [List.length_cons, List.length_append]
          omega
        · refine List.forall_mem_cons.2 ⟨by decide, List.forall_mem_append.2 ⟨fun c hc => ?_, hx⟩⟩
          exact isNumberChar_of_isDigit (hds c hc)
        · rw [List.cons_append, List.append_assoc]
          simp only [afterWhole, fraction_append (hr.exchange hr''.digits) _ _ hds]
          rw [if_neg hlength]
          exact hread r'' hr''
    · by_cases hc : c = 'e' ∨ c = 'E'
      · exact hmark hc h
      · have hstop : StopsAt goesOn (c :: t) := by
          refine stopsAt_cons ?_ t
          rw [not_or] at hc
          simp [goesOn, hs c t rfl, hpoint, hc.1, hc.2]
        obtain ⟨v', hread⟩ := afterWhole_plain negative scan
        have hhere := hread (c :: t) hstop
        rw [h] at hhere
        cases hhere
        exact ⟨[], c :: t, rfl, rfl, List.forall_mem_nil _, hs, hread⟩

theorem unsignedNumber?_takes (h : unsignedNumber? negative k (c :: t) = some (v, n)) :
    isDigit c = true ∧ Takes (fun t => unsignedNumber? negative k (c :: t)) (k + 1) t v n := by
  have hc : isDigit c = true := by
    cases hc : isDigit c with
    | true => rfl
    | false => simp [unsignedNumber?, hc] at h
  obtain ⟨ds, r, rfl, hds, hr⟩ := exists_digits t
  have hzero : c = '0' → ds = [] := by
    rintro rfl
    cases ds with
    | nil => rfl
    | cons d ds => simp [unsignedNumber?, hc, hds d List.mem_cons_self] at h
  have hwhole {r : List Char} (hr : StopsAt isDigit r) := unsignedNumber?_whole negative k hc hds hzero hr
  have hsize : (NumberScan.whole ⟨digitValue c, 0, k + 1⟩ ds).1.length = k + 1 + ds.length := whole_length _ hds
  rw [← List.cons_append, hwhole hr] at h
  obtain ⟨x, r, rfl, hn, hx, hr', hread⟩ := afterWhole_takes hr h
  refine ⟨hc, ds ++ x, r, by rw [List.append_assoc], ?_, ?_, hr', fun r' hr' => ?_⟩
  · rw [hn, hsize, List.length_append]
    omega
  · exact List.forall_mem_append.2 ⟨fun c hc => isNumberChar_of_isDigit (hds c hc), hx⟩
  · have hread := hread r' hr'
    rw [← hwhole (hr.exchange hr'.digits)] at hread
    simpa using hread

end Float

/-- **A number is read to its end**, and the same in front of anything that it could not go on with. -/
theorem number?_takes {v : Option Number} (h : number? (c :: t) = some (v, n)) :
    (c = '-' ∨ isDigit c = true) ∧ Takes (fun t => number? (c :: t)) 1 t v n := by
  by_cases hminus : c = '-'
  · subst hminus
    refine ⟨.inl rfl, ?_⟩
    cases t with
    | nil => cases h
    | cons d t =>
      have hunsigned : unsignedNumber? true 1 (d :: t) = some (v, n) := h
      obtain ⟨hd, htakes⟩ := unsignedNumber?_takes hunsigned
      have hnumber : Takes (fun t => number? ('-' :: t)) 1 (d :: t) v n :=
        htakes.cons (isNumberChar_of_isDigit hd)
      exact hnumber
  · have hunsigned (t : List Char) : number? (c :: t) = unsignedNumber? false 0 (c :: t) := by
      unfold number?
      split
      next heq => exact absurd (List.cons.inj heq).1 hminus
      next => rfl
    rw [hunsigned] at h
    obtain ⟨hc, htakes⟩ := unsignedNumber?_takes h
    simp only [hunsigned]
    exact ⟨.inr hc, htakes⟩

/-! ## Strings -/

theorem hexValue?_ne {a v : Char} {m : Nat} (h : hexValue? a = some m) (hv : hexValue? v = none) : a ≠ v := by
  rintro rfl
  rw [hv] at h
  cases h

/-- The digits of an escape neither end a string nor escape anything. -/
theorem hexUnit?_stringRest {a b c d : Char} {m : Nat} (h : hexUnit? a b c d = some m) {x : List Char}
    (hx : StringRest '"' x) : StringRest '"' (a :: b :: c :: d :: x) := by
  simp only [hexUnit?, Option.bind_eq_bind, Option.bind_eq_some_iff] at h
  obtain ⟨_, ha, _, hb, _, hc, _, hd, -⟩ := h
  have hchar {a : Char} {m : Nat} (ha : hexValue? a = some m) {x : List Char} (hx : StringRest '"' x) :
      StringRest '"' (a :: x) :=
    .char (hexValue?_ne ha (by decide)) (hexValue?_ne ha (by decide)) hx
  exact hchar ha (hchar hb (hchar hc (hchar hd hx)))

theorem stringUnits?_simple {c e : Char} (hc : simpleEscape? c = some e) (s : List Char) :
    stringUnits? ('\\' :: c :: s) = (stringUnits? s).map fun (us, k) => (.char e :: us, k + 2) := by
  have hne : c ≠ 'u' := by
    rintro rfl
    cases hc
  rw [stringUnits?.eq_def]
  split
  next heq => cases heq
  next heq => cases heq
  next heq =>
    cases heq
    exact absurd rfl hne
  next heq =>
    cases heq
    rw [hc]
  next hnot heq =>
    cases heq
    exact (hnot c s rfl rfl).elim

/-- **A string is read to the quote that closes it.** -/
theorem stringUnits?_takes {us : List StringUnit} (h : stringUnits? s = some (us, n)) :
    ∃ x r, s = x ++ r ∧ n = x.length ∧ StringRest '"' x ∧ ∀ r', stringUnits? (x ++ r') = some (us, n) := by
  fun_induction stringUnits? s generalizing us n with
  | case1 => cases h
  | case2 r =>
    cases h
    exact ⟨['"'], r, rfl, rfl, .close, fun _ => rfl⟩
  | case3 => cases h
  | case4 a b c d s m hm ih =>
    obtain ⟨⟨us, k⟩, hs, heq⟩ := Option.map_eq_some_iff.1 h
    cases heq
    obtain ⟨x, r, rfl, rfl, hx, hread⟩ := ih hs
    refine ⟨'\\' :: 'u' :: a :: b :: c :: d :: x, r, rfl, rfl, .escaped 'u' (hexUnit?_stringRest hm hx), fun r' => ?_⟩
    simp only [List.cons_append, stringUnits?, hm, hread, Option.map_some]
  | case5 => cases h
  | case6 c s _ e he ih =>
    obtain ⟨⟨us, k⟩, hs, heq⟩ := Option.map_eq_some_iff.1 h
    cases heq
    obtain ⟨x, r, rfl, rfl, hx, hread⟩ := ih hs
    refine ⟨'\\' :: c :: x, r, rfl, rfl, .escaped c hx, fun r' => ?_⟩
    rw [List.cons_append, List.cons_append, stringUnits?_simple he, hread, Option.map_some]
  | case7 => cases h
  | case8 c s hquote _ _ hc ih =>
    obtain ⟨⟨us, k⟩, hs, heq⟩ := Option.map_eq_some_iff.1 h
    cases heq
    obtain ⟨x, r, rfl, rfl, hx, hread⟩ := ih hs
    simp only [Bool.or_eq_true, decide_eq_true_eq, not_or] at hc
    refine ⟨c :: x, r, rfl, rfl, .char hquote hc.1 hx, fun r' => ?_⟩
    rw [List.cons_append, stringUnits?_cons_char _ hquote hc.1 hc.2, hread, Option.map_some]

/-- What is written of a string up to the quote that closes it. -/
theorem stringRest_escape (s : List Char) : StringRest '"' (escape s ++ ['"']) := by
  obtain ⟨x, r, hx, hlength, hrest, -⟩ := stringUnits?_takes (stringUnits?_escape [] s)
  obtain rfl : r = [] := by
    have := congrArg List.length hx
    simp only [List.length_append, List.length_singleton] at this
    exact List.eq_nil_of_length_eq_zero (by omega)
  rw [List.append_nil] at hx
  rwa [hx]

/-! ## Tokens -/

/-- The text of a token: without slashes and quotes, or a string. -/
inductive Lexeme : List Char → Prop where
  | word {x : List Char} : (∀ c ∈ x, c ≠ '/' ∧ c ≠ '"' ∧ c ≠ '\'') → Lexeme x
  | string {x : List Char} : StringRest '"' x → Lexeme ('"' :: x)

theorem ne_of_isNumberChar (h : isNumberChar c = true) : c ≠ '/' ∧ c ≠ '"' ∧ c ≠ '\'' := by
  refine ⟨?_, ?_, ?_⟩
  all_goals
    rintro rfl
    revert h
    decide

/-- In front of `r`, the token `u` is read, and `x` is its text. -/
structure IsToken (u : Token) (x r : List Char) : Prop where
  ne_nil : x ≠ []
  lexeme : Lexeme x
  /-- It is read the same in front of anything else; a number in front of anything that it could not go on with. -/
  reads : (∀ r', token? (x ++ r') = some (u, x.length)) ∨
    StopsAt isDigit r ∧ ∀ r', StopsAt goesOn r' → token? (x ++ r') = some (u, x.length)

/-- **A token is a part of the text**, whatever follows. -/
theorem token?_takes {u : Token} (h : token? s = some (u, n)) :
    ∃ x r, s = x ++ r ∧ n = x.length ∧ IsToken u x r := by
  have hfixed {x r : List Char} (hs : s = x ++ r) (hne : x ≠ []) (hx : ∀ c ∈ x, c ≠ '/' ∧ c ≠ '"' ∧ c ≠ '\'')
      (hread : ∀ r', token? (x ++ r') = some (u, x.length)) :
      ∃ x r, s = x ++ r ∧ n = x.length ∧ IsToken u x r := by
    have hn : n = x.length := by
      rw [hs, hread] at h
      cases h
      rfl
    exact ⟨x, r, hs, hn, hne, .word hx, .inl hread⟩
  have hcases := h
  unfold token? at hcases
  split at hcases
  next => cases hcases
  next r => cases hcases; exact hfixed (x := ['\x7b']) rfl (by decide) (by decide) fun _ => rfl
  next r => cases hcases; exact hfixed (x := ['\x7d']) rfl (by decide) (by decide) fun _ => rfl
  next r => cases hcases; exact hfixed (x := ['[']) rfl (by decide) (by decide) fun _ => rfl
  next r => cases hcases; exact hfixed (x := [']']) rfl (by decide) (by decide) fun _ => rfl
  next r => cases hcases; exact hfixed (x := [':']) rfl (by decide) (by decide) fun _ => rfl
  next r => cases hcases; exact hfixed (x := [',']) rfl (by decide) (by decide) fun _ => rfl
  next s =>
    obtain ⟨⟨us, k⟩, hs, heq⟩ := Option.map_eq_some_iff.1 hcases
    cases heq
    obtain ⟨x, r, rfl, rfl, hx, hread⟩ := stringUnits?_takes hs
    refine ⟨'"' :: x, r, rfl, rfl, List.cons_ne_nil _ _, .string hx, .inl fun r' => ?_⟩
    simp only [List.cons_append, token?, hread, Option.map_some, List.length_cons]
  next r => cases hcases; exact hfixed (x := "null".toList) rfl (by decide) (by decide) fun _ => rfl
  next r => cases hcases; exact hfixed (x := "true".toList) rfl (by decide) (by decide) fun _ => rfl
  next r => cases hcases; exact hfixed (x := "false".toList) rfl (by decide) (by decide) fun _ => rfl
  next =>
    obtain ⟨⟨v, k⟩, hs, heq⟩ := Option.map_eq_some_iff.1 hcases
    cases heq
    cases s with
    | nil => cases hs
    | cons c t =>
      obtain ⟨hc, x, r, rfl, rfl, hx, hr, hread⟩ := number?_takes hs
      have hnumber : isNumberChar c = true := by
        rcases hc with rfl | hc
        · decide
        · exact isNumberChar_of_isDigit hc
      refine ⟨c :: x, r, rfl, Nat.add_comm _ _, List.cons_ne_nil _ _, .word ?_, .inr ⟨hr, fun r' hr' => ?_⟩⟩
      · exact List.forall_mem_cons.2 ⟨ne_of_isNumberChar hnumber, fun d hd => ne_of_isNumberChar (hx d hd)⟩
      · have hsame : number? (c :: (x ++ r')) = some (v, 1 + x.length) := hread r' hr'
        rw [List.cons_append, token?_number hc, hsame, Option.map_some, List.length_cons, Nat.add_comm]

/-! ## Tokens behind each other -/

theorem isSpace_iff : isSpace c = true ↔ c = ' ' ∨ c = '\n' ∨ c = '\t' ∨ c = '\r' := by
  simp only [isSpace, Bool.or_eq_true, decide_eq_true_eq, or_assoc]

theorem tokens?_space (hc : isSpace c = true) (s : List Char) : tokens? (c :: s) = tokens? s := by
  rw [tokens?, tokensFrom?, if_pos hc, tokens?]

/-- A blank begins no token. -/
theorem token?_space (hc : isSpace c = true) (s : List Char) : token? (c :: s) = none := by
  rcases isSpace_iff.1 hc with rfl | rfl | rfl | rfl
  all_goals rfl

/-- A token in front of a text is cut off. -/
theorem tokens?_append {u : Token} {x r : List Char} (hx : x ≠ []) (h : token? (x ++ r) = some (u, x.length)) :
    tokens? (x ++ r) = (tokens? r).map (u :: ·) := by
  obtain ⟨c, x, rfl⟩ := List.exists_cons_of_ne_nil hx
  refine tokensFrom?_token ?_ h
  cases hc : isSpace c with
  | false => rfl
  | true =>
    rw [List.cons_append, token?_space hc] at h
    cases h

/-- A text that is cut into tokens is empty, or begins with a blank or a token. -/
theorem tokens?_cases {ts : List Token} (h : tokens? s = some ts) :
    s = [] ∨ (∃ c r, s = c :: r ∧ isSpace c = true ∧ tokens? r = some ts) ∨
      ∃ u n us, token? s = some (u, n) ∧ ts = u :: us ∧ tokens? (s.drop n) = some us := by
  cases s with
  | nil => exact .inl rfl
  | cons c r =>
    cases hc : isSpace c with
    | true => exact .inr (.inl ⟨c, r, rfl, hc, tokens?_space hc r ▸ h⟩)
    | false =>
      rw [tokens?, tokensFrom?, if_neg (by simp [hc])] at h
      split at h
      next => cases h
      next u n hu =>
        obtain ⟨us, hus, rfl⟩ := Option.map_eq_some_iff.1 h
        obtain ⟨x, r', hsplit, rfl, htoken⟩ := token?_takes hu
        obtain ⟨d, x, rfl⟩ := List.exists_cons_of_ne_nil htoken.ne_nil
        obtain ⟨rfl, rfl⟩ := List.cons.inj hsplit
        refine .inr (.inr ⟨u, _, us, hu, rfl, ?_⟩)
        rw [List.length_cons, Nat.add_sub_cancel, tokensFrom?_drop _ _ (by simp)] at hus
        exact hus

/-- The text is a row of tokens with blanks around them. -/
inductive Tokenized : List Char → List Token → Prop where
  | nil : Tokenized [] []
  | blank {c : Char} {s : List Char} {us : List Token} : isSpace c = true → Tokenized s us → Tokenized (c :: s) us
  | token {u : Token} {x s : List Char} {us : List Token} : x ≠ [] → Lexeme x →
      token? (x ++ s) = some (u, x.length) → Tokenized s us → Tokenized (x ++ s) (u :: us)

/-- A text that is cut into tokens is a row of them. -/
theorem tokenized_of_tokens? {us : List Token} (h : tokens? s = some us) : Tokenized s us := by
  -- what is left behind a blank or a token is shorter
  induction hn : s.length using Nat.strongRecOn generalizing s us with
  | ind n ih =>
    subst hn
    rcases tokens?_cases h with rfl | ⟨c, r, rfl, hc, hr⟩ | ⟨u, n, us, hu, rfl, hr⟩
    · cases h
      exact .nil
    · exact .blank hc (ih _ (by simp) hr rfl)
    · obtain ⟨x, r, rfl, rfl, htoken⟩ := token?_takes hu
      rw [List.drop_left] at hr
      have hlt : r.length < (x ++ r).length := by
        rw [List.length_append]
        exact Nat.lt_add_of_pos_left (List.length_pos_iff.2 htoken.ne_nil)
      exact .token htoken.ne_nil htoken.lexeme hu (ih _ hlt hr rfl)

/-- Nothing that is cut into tokens begins with what a number goes on with behind its digits. -/
theorem StopsAt.goesOn_of_tokens? {ts : List Token} (hs : StopsAt isDigit s) (h : tokens? s = some ts) :
    StopsAt goesOn s := by
  rintro c r rfl
  have hpart : c ≠ '.' ∧ c ≠ 'e' ∧ c ≠ 'E' := by
    refine ⟨?_, ?_, ?_⟩
    all_goals
      rintro rfl
      cases h
  simp [goesOn, hs c r rfl, hpart]

end ClientBuild.Json
