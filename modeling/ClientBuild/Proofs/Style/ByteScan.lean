import ClientBuild.Proofs.Style.Body
import ClientBuild.Proofs.Text.Offsets

/-!
# Passing comments and strings by offsets

The scans of stylesheets look at a byte at a time and pass comments and strings as a whole (`startAt?`, `commentEnd?`,
`stringEnd?`).  In a string a backslash takes the byte behind it along, whatever character that belongs to; the search
for the quote gets to the end of that character before it finds anything (`loop_stringRound`).  So comments and strings,
closed or not, end where the library takes them to end (`Passed`), and the brace that closes a block is found where the
block is read up to (`blockEnd?_eq`).
-/

namespace ClientBuild.Style

open Text (Round StandsAt AsciiAlike loop offsetOf? back? byteAt? byteSize)

/-! ## Comments and strings -/

/-- What a scan comes to at an offset. -/
inductive Start where
  | comment
  | string (quote : Char)
  | other (byte : Char)

/-- What begins at an offset, if the text goes on there. -/
def startAt? (text : List Char) (i : Nat) : Option Start :=
  (byteAt? text i).map fun b =>
    if b = '/' ∧ byteAt? text (i + 1) = some '*' then .comment
    else if isSheetQuote b then .string b
    else .other b

/-- The offset behind a comment. -/
def commentEnd? (text : List Char) (start : Nat) : Option Nat := do
  match ← offsetOf? ['*', '/'] text (start + 2) with
  | none => some (byteSize text)
  | some stop => some (stop + 2)

variable {text rest : List Char} {q c d : Char} {i j : Nat}

/-- A round of the search for the end of a string with the quote `q`. -/
def stringRound (text : List Char) (q : Char) (i : Nat) : Option (Round Nat Nat) :=
  match byteAt? text i with
  | none => some (.done (byteSize text))
  | some b =>
    if b = '\\' then some (.next (i + 2))
    else if b = q then some (.done (i + 1))
    else some (.next (i + 1))

/-- Every round of the search for the end of a string moves on, wherever it is. -/
theorem advances_stringRound (text : List Char) (q : Char) : Text.Advances text id (stringRound text q) := by
  intro i j h
  rw [stringRound] at h
  split at h
  next => cases h
  next hbyte =>
    refine ⟨Text.lt_byteSize_of_byteAt? hbyte, ?_⟩
    split at h
    next =>
      cases h
      exact Nat.lt_succ_of_lt (Nat.lt_succ_self i)
    next =>
      split at h
      next => cases h
      next =>
        cases h
        exact Nat.lt_succ_self i

/-- The offset behind a string with the quote `q`. -/
def stringEnd? (text : List Char) (q : Char) (start : Nat) : Option Nat :=
  loop (advances_stringRound text q) (start + 1)

theorem isSheetQuote_iff : isSheetQuote q = true ↔ q = '"' ∨ q = '\'' := by
  simp only [isSheetQuote, Bool.or_eq_true, beq_iff_eq]

theorem toNat_of_isSheetQuote (hq : isSheetQuote q = true) : q.toNat < 128 := by
  rcases isSheetQuote_iff.1 hq with rfl | rfl <;> decide

theorem ne_backslash_of_isSheetQuote (hq : isSheetQuote q = true) : q ≠ '\\' := by
  rintro rfl
  cases hq

theorem isSheetQuote_eq_of_asciiAlike (h : AsciiAlike d c) : isSheetQuote d = isSheetQuote c := by
  rw [Bool.eq_iff_iff, isSheetQuote_iff, isSheetQuote_iff, h '"' (by decide), h '\'' (by decide)]

theorem lt_byteSize_of_startAt? {start : Start} (h : startAt? text i = some start) : i < byteSize text := by
  obtain ⟨b, hbyte, -⟩ := Option.map_eq_some_iff.1 h
  exact Text.lt_byteSize_of_byteAt? hbyte

theorem startAt?_end (h : StandsAt text i []) (hj : i ≤ j) : startAt? text j = none := by
  rw [startAt?, h.byteAt?_end hj]
  rfl

theorem startAt?_comment {s : List Char} (h : StandsAt text i ('/' :: '*' :: s)) : startAt? text i = some .comment := by
  have hstar := (h.cons_ascii (by decide)).byteAt?_ascii (by decide)
  rw [startAt?, h.byteAt?_ascii (by decide), Option.map_some, if_pos ⟨rfl, hstar⟩]

theorem startAt?_string {s : List Char} (hq : isSheetQuote q = true) (h : StandsAt text i (q :: s)) :
    startAt? text i = some (.string q) := by
  rw [startAt?, h.byteAt?_ascii (toNat_of_isSheetQuote hq), Option.map_some,
    if_neg fun hcomment => ne_slash_of_quote hq hcomment.1, if_pos hq]

/-- Any other character is told by its first byte. -/
theorem exists_startAt?_other {s : List Char} (hquote : isSheetQuote c = false) (hcomment : ¬ ['/', '*'] <+: c :: s)
    (h : StandsAt text i (c :: s)) : ∃ d, startAt? text i = some (.other d) ∧ AsciiAlike d c := by
  obtain ⟨d, hbyte, halike⟩ := h.exists_byteAt?
  have hnone : ¬ (d = '/' ∧ byteAt? text (i + 1) = some '*') := by
    rintro ⟨hslash, hstar⟩
    obtain rfl := (halike '/' (by decide)).1 hslash
    cases s with
    | nil =>
      rw [(h.cons_ascii (by decide)).byteAt?_end (Nat.le_refl _)] at hstar
      cases hstar
    | cons e s =>
      obtain ⟨f, hf, hfollows⟩ := (h.cons_ascii (by decide)).exists_byteAt?
      obtain rfl := Option.some.inj (hf.symm.trans hstar)
      obtain rfl := (hfollows '*' (by decide)).1 rfl
      exact hcomment (List.prefix_append ['/', '*'] s)
  refine ⟨d, ?_, halike⟩
  rw [startAt?, hbyte, Option.map_some, if_neg hnone, isSheetQuote_eq_of_asciiAlike halike, hquote]
  rfl

theorem startAt?_of_large (hbyte : byteAt? text i = some d) (hd : 128 ≤ d.toNat) :
    startAt? text i = some (.other d) := by
  have hquote : ¬ isSheetQuote d = true := fun h => Text.ne_of_large hd (toNat_of_isSheetQuote h) rfl
  rw [startAt?, hbyte, Option.map_some, if_neg fun h => Text.ne_of_large hd (by decide) h.1, if_neg hquote]

/-- Where a comment begins according to its bytes, one stands in the text. -/
theorem exists_standsAt_comment (h : startAt? text i = some .comment) : ∃ s, StandsAt text i ('/' :: '*' :: s) := by
  obtain ⟨b, hbyte, hstart⟩ := Option.map_eq_some_iff.1 h
  split at hstart
  next hcomment =>
    obtain ⟨rfl, hstar⟩ := hcomment
    obtain ⟨r, hslash⟩ := Text.exists_standsAt hbyte (by decide)
    obtain ⟨s, hplace⟩ := Text.exists_standsAt hstar (by decide)
    obtain rfl := (hslash.cons_ascii (by decide)).eq_of_standsAt hplace
    exact ⟨s, hslash⟩
  next =>
    split at hstart
    next => cases hstart
    next => cases hstart

/-- Where a string begins according to its byte, one stands in the text. -/
theorem exists_standsAt_string (h : startAt? text i = some (.string q)) :
    isSheetQuote q = true ∧ ∃ s, StandsAt text i (q :: s) := by
  obtain ⟨b, hbyte, hstart⟩ := Option.map_eq_some_iff.1 h
  split at hstart
  next => cases hstart
  next =>
    split at hstart
    next hq =>
      cases hstart
      exact ⟨hq, Text.exists_standsAt hbyte (toNat_of_isSheetQuote hq)⟩
    next => cases hstart

/-- Where anything else begins according to its byte, one of ASCII stands in the text. -/
theorem exists_standsAt_other (h : startAt? text i = some (.other d)) (hd : d.toNat < 128) :
    ∃ s, StandsAt text i (d :: s) := by
  obtain ⟨b, hbyte, hstart⟩ := Option.map_eq_some_iff.1 h
  split at hstart
  next => cases hstart
  next =>
    split at hstart
    next => cases hstart
    next =>
      cases hstart
      exact Text.exists_standsAt hbyte hd

/-- A comment ends where its end stands first. -/
theorem takeComment_eq (s : List Char) : takeComment s =
    match Text.breakOn? ['*', '/'] s with
    | none => (s, [])
    | some (t, r) => (t ++ ['*', '/'], r) := by
  cases hfound : Text.breakOn? ['*', '/'] s with
  | none =>
    have hnone := Text.breakOn?_eq_none_iff.1 hfound
    clear hfound
    induction s with
    | nil => rfl
    | cons c s ih =>
      have hhere : ¬ ['*', '/'] <+: c :: s := fun h => hnone h.isInfix
      have hrest := ih fun h => hnone (h.trans (List.suffix_cons c s).isInfix)
      rw [takeComment_cons hhere, hrest]
      rfl
  | some p =>
    obtain ⟨t, r⟩ := p
    obtain ⟨rfl, hfirst⟩ := (Text.breakOn?_eq_some_iff (by decide)).1 hfound
    rw [List.append_assoc]
    exact takeComment_of_first hfirst r

/-- The end of a comment is found where the comment is over. -/
theorem commentEnd?_eq {s : List Char} (h : StandsAt text i ('/' :: '*' :: s)) :
    commentEnd? text i = some (i + byteSize ('/' :: '*' :: (takeComment s).1)) := by
  have hbehind : StandsAt text (i + 2) s := (h.cons_ascii (by decide)).cons_ascii (by decide)
  have hsize (t : List Char) : i + byteSize ('/' :: '*' :: t) = i + 2 + byteSize t := by
    rw [Text.byteSize_cons, Text.byteSize_cons, ← Nat.add_assoc, ← Nat.add_assoc]
    rfl
  rw [commentEnd?, hbehind.offsetOf?, hsize, takeComment_eq, Option.bind_eq_bind, Option.bind_some]
  cases Text.breakOn? ['*', '/'] s with
  | none => rw [Option.map_none, hbehind.size_eq]
  | some p =>
    rw [Option.map_some, Text.byteSize_append, ← Nat.add_assoc]
    rfl

theorem stringRound_of_large (hq : isSheetQuote q = true) (hbyte : byteAt? text i = some d) (hd : 128 ≤ d.toNat) :
    stringRound text q i = some (.next (i + 1)) := by
  have hescape : d ≠ '\\' := Text.ne_of_large hd (by decide)
  have hquote : d ≠ q := Text.ne_of_large hd (toNat_of_isSheetQuote hq)
  simp only [stringRound, hbyte, if_neg hescape, if_neg hquote]

theorem loop_stringRound_end (h : StandsAt text i []) (hj : i ≤ j) :
    loop (advances_stringRound text q) j = some (byteSize text) :=
  Text.loop_of_done (by rw [stringRound, h.byteAt?_end hj])

/-- From within a character the search gets to the next one. -/
theorem loop_stringRound_inside (hq : isSheetQuote q = true) (h : StandsAt text i (c :: rest)) (hi : i < j)
    (hj : j ≤ i + c.utf8Size) :
    loop (advances_stringRound text q) j = loop (advances_stringRound text q) (i + c.utf8Size) :=
  h.loop_inside id (fun _ _ hbyte hlarge => stringRound_of_large hq hbyte hlarge) hi hj

/-- The search for the end of a string comes to where the string is over. -/
theorem loop_stringRound (hq : isSheetQuote q = true) (h : StandsAt text i rest) :
    loop (advances_stringRound text q) i = some (i + byteSize (takeString q rest).1) := by
  fun_induction takeString q rest generalizing i with
  | case1 => exact (loop_stringRound_end h (Nat.le_refl i)).trans (congrArg some h.size_eq)
  | case2 c s ih =>
    have hround : stringRound text q i = some (.next (i + 2)) := by
      simp only [stringRound, h.byteAt?_ascii (by decide), if_true]
    have hbehind := h.cons_ascii (by decide)
    rw [Text.loop_of_next hround,
      loop_stringRound_inside hq hbehind (Nat.lt_succ_self _) (Nat.add_le_add_left c.utf8Size_pos _),
      ih hbehind.cons]
    simp only [pushFront, Text.byteSize_cons, ← Nat.add_assoc]
    rfl
  | case3 s hescape =>
    have hround : stringRound text q i = some (.done (i + 1)) := by
      simp only [stringRound, h.byteAt?_ascii (toNat_of_isSheetQuote hq), if_neg (ne_backslash_of_isSheetQuote hq),
        if_true]
    rw [Text.loop_of_done hround, Text.byteSize_singleton, Text.utf8Size_of_ascii (toNat_of_isSheetQuote hq)]
  | case4 c s hescape hquote ih =>
    by_cases hc : c = '\\'
    · -- A backslash at the end of the text.
      subst hc
      obtain rfl : s = [] := List.eq_nil_iff_forall_not_mem.2 fun e he => by
        obtain ⟨e, s, rfl⟩ := List.exists_cons_of_ne_nil (List.ne_nil_of_mem he)
        exact hescape e s rfl rfl
      have hround : stringRound text q i = some (.next (i + 2)) := by
        simp only [stringRound, h.byteAt?_ascii (by decide), if_true]
      have hend : loop (advances_stringRound text q) (i + 2) = some (byteSize text) :=
        loop_stringRound_end (h.cons_ascii (by decide)) (Nat.le_succ (i + 1))
      rw [Text.loop_of_next hround, hend, h.size_eq]
      rfl
    · obtain ⟨d, hbyte, halike⟩ := h.exists_byteAt?
      have hround : stringRound text q i = some (.next (i + 1)) := by
        simp only [stringRound, hbyte, if_neg ((halike '\\' (by decide)).not.2 hc),
          if_neg ((halike q (toNat_of_isSheetQuote hq)).not.2 hquote)]
      rw [Text.loop_of_next hround,
        loop_stringRound_inside hq h (Nat.lt_succ_self i) (Nat.add_le_add_left c.utf8Size_pos i), ih h.cons]
      simp only [pushFront, Text.byteSize_cons, Nat.add_assoc]

/-- The end of a string is found where the string is over. -/
theorem stringEnd?_eq {s : List Char} (hq : isSheetQuote q = true) (h : StandsAt text i (q :: s)) :
    stringEnd? text q i = some (i + byteSize (q :: (takeString q s).1)) := by
  have hsize := Text.utf8Size_of_ascii (toNat_of_isSheetQuote hq)
  rw [stringEnd?, loop_stringRound hq (h.cons_ascii (toNat_of_isSheetQuote hq)), Text.byteSize_cons, hsize,
    Nat.add_assoc]

theorem standsAt_takeComment {s : List Char} (h : StandsAt text i ('/' :: '*' :: s)) :
    StandsAt text (i + byteSize ('/' :: '*' :: (takeComment s).1)) (takeComment s).2 := by
  rw [← takeComment_append s] at h
  exact StandsAt.append (a := '/' :: '*' :: (takeComment s).1) h

theorem standsAt_takeString {s : List Char} (h : StandsAt text i (q :: s)) :
    StandsAt text (i + byteSize (q :: (takeString q s).1)) (takeString q s).2 := by
  rw [← takeString_append q s] at h
  exact StandsAt.append (a := q :: (takeString q s).1) h

/-- A comment that begins at an offset ends behind it, in front of a character or at the end. -/
theorem isBoundary_commentEnd? (h : startAt? text i = some .comment) :
    ∃ stop, commentEnd? text i = some stop ∧ i < stop ∧ Text.IsBoundary text stop := by
  obtain ⟨s, hplace⟩ := exists_standsAt_comment h
  refine ⟨_, commentEnd?_eq hplace, Nat.lt_add_of_pos_right ?_, (standsAt_takeComment hplace).isBoundary⟩
  rw [Text.byteSize_cons]
  exact Nat.add_pos_left (Char.utf8Size_pos _) _

/-- A string that begins at an offset ends behind it, in front of a character or at the end. -/
theorem isBoundary_stringEnd? (h : startAt? text i = some (.string q)) :
    ∃ stop, stringEnd? text q i = some stop ∧ i < stop ∧ Text.IsBoundary text stop := by
  obtain ⟨hq, s, hplace⟩ := exists_standsAt_string h
  refine ⟨_, stringEnd?_eq hq hplace, Nat.lt_add_of_pos_right ?_, (standsAt_takeString hplace).isBoundary⟩
  rw [Text.byteSize_cons]
  exact Nat.add_pos_left (Char.utf8Size_pos _) _

/-! ## What is passed -/

/-- A string or comment from somewhere on, with what follows it: it is closed, or it reaches to the end. -/
inductive Passed (rest : List Char) : Place → List Char → Prop where
  | closed : Passed rest .code []
  | ended {p : Place} : p ≠ .code → rest = [] → Passed rest p []
  | char {p : Place} {c : Char} {t : List Char} : p ≠ .code → Passed rest (p.next c) t → Passed rest p (c :: t)

theorem passed_takeString (hq : isSheetQuote q = true) (s : List Char) :
    Passed (takeString q s).2 (.string q false) (takeString q s).1 := by
  fun_induction takeString q s with
  | case1 => exact .ended Place.noConfusion rfl
  | case2 c s ih => exact .char Place.noConfusion (.char Place.noConfusion ih)
  | case3 s hescape =>
    have hclosed : (Place.string q false).next q = .code := by
      rw [Place.next, if_neg Bool.false_ne_true, if_neg (ne_backslash_of_isSheetQuote hq), if_pos rfl]
    exact .char Place.noConfusion (hclosed ▸ .closed)
  | case4 c s hescape hquote ih =>
    by_cases hc : c = '\\'
    · subst hc
      cases s with
      | nil => exact .char Place.noConfusion (.ended Place.noConfusion rfl)
      | cons e s => exact absurd rfl (hescape e s rfl)
    · have hinside : (Place.string q false).next c = .string q false := by
        rw [Place.next, if_neg Bool.false_ne_true, if_neg hc, if_neg hquote]
      exact .char Place.noConfusion (hinside.symm ▸ ih)

theorem passed_takeComment {s : List Char} : ∀ {star : Bool}, (star = true → s.head? ≠ some '/') →
    Passed (takeComment s).2 (.comment star) (takeComment s).1 := by
  fun_induction takeComment s with
  | case1 => exact fun _ => .ended Place.noConfusion rfl
  | case2 s =>
    intro star _
    have hstar : (Place.comment star).next '*' = .comment true := by simp [Place.next]
    exact .char Place.noConfusion (hstar.symm ▸ .char Place.noConfusion .closed)
  | case3 c s hfirst ih =>
    intro star hstar
    have hinside : (Place.comment star).next c = .comment (decide (c = '*')) := by
      rw [Place.next, if_neg fun h => hstar h.2 (congrArg some h.1)]
    refine .char Place.noConfusion (hinside.symm ▸ ih fun hc hslash => ?_)
    obtain ⟨s, rfl⟩ := List.head?_eq_some_iff.1 hslash
    exact hfirst s (of_decide_eq_true hc) rfl

theorem takeBlock?_passed {p : Place} {t : List Char} (h : Passed rest p t) (depth : Nat) :
    takeBlock? p depth (t ++ rest) = inFront t (takeBlock? .code depth rest) := by
  induction h with
  | closed => rw [List.nil_append, inFront_nil]
  | @ended p hp hrest =>
    subst hrest
    cases p <;> rfl
  | char hp _ ih => rw [List.cons_append, takeBlock?_inside depth hp, ih, ← inFront_append, List.singleton_append]

/-- The search for a brace passes a string, closed or not. -/
theorem takeBlock?_takeString (hq : isSheetQuote q = true) (depth : Nat) (s : List Char) :
    takeBlock? .code depth (q :: s) =
      inFront (q :: (takeString q s).1) (takeBlock? .code depth (takeString q s).2) := by
  have hstring := takeBlock?_passed (passed_takeString hq s) depth
  rw [takeString_append] at hstring
  rw [takeBlock?_code depth (not_comment_of_ne (ne_slash_of_quote hq) s), if_pos hq, hstring, ← inFront_append,
    List.singleton_append]

/-- The search for a brace passes a comment, closed or not. -/
theorem takeBlock?_takeComment (depth : Nat) (s : List Char) :
    takeBlock? .code depth ('/' :: '*' :: s) =
      inFront ('/' :: '*' :: (takeComment s).1) (takeBlock? .code depth (takeComment s).2) := by
  have hcomment := takeBlock?_passed (passed_takeComment (s := s) fun h => absurd h Bool.false_ne_true) depth
  rw [takeComment_append] at hcomment
  rw [takeBlock?, hcomment]
  cases takeBlock? .code depth (takeComment s).2 <;> rfl

theorem Passed.eq_nil {t : List Char} (h : Passed rest .code t) : t = [] := by
  cases h with
  | closed => rfl
  | ended => rfl
  | char hp => exact absurd rfl hp

theorem next_string (q : Char) (escaped : Bool) (c : Char) :
    (Place.string q escaped).next c = .code ∨ ∃ e, (Place.string q escaped).next c = .string q e := by
  by_cases hescaped : escaped = true
  · exact Or.inr ⟨false, by rw [Place.next, if_pos hescaped]⟩
  · by_cases hc : c = '\\'
    · exact Or.inr ⟨true, by rw [Place.next, if_neg hescaped, if_pos hc]⟩
    · by_cases hquote : c = q
      · exact Or.inl (by rw [Place.next, if_neg hescaped, if_neg hc, if_pos hquote])
      · exact Or.inr ⟨false, by rw [Place.next, if_neg hescaped, if_neg hc, if_neg hquote]⟩

/-- What is passed in a place belongs to the declaration being read, unless it is a comment. -/
def Place.kept (t current : List Char) : Place → List Char
  | .comment _ => current
  | _ => t.reverse ++ current

theorem splitDeclarationsFrom_passed {p : Place} {t : List Char} (h : Passed rest p t) (depth : Nat)
    (current : List Char) :
    splitDeclarationsFrom p depth current (t ++ rest) =
      splitDeclarationsFrom .code depth (p.kept t current) rest := by
  induction h generalizing current with
  | closed => rfl
  | @ended p hp hrest =>
    rw [hrest]
    cases p <;> rfl
  | @char p c t hp htail ih =>
    cases p with
    | code => exact absurd rfl hp
    | string q escaped =>
      have hkept : ((Place.string q escaped).next c).kept t (c :: current) = (c :: t).reverse ++ current := by
        rw [List.reverse_cons, List.append_assoc, List.singleton_append]
        rcases next_string q escaped c with hnext | ⟨escaped, hnext⟩
        · rw [hnext]
          rfl
        · rw [hnext]
          rfl
      rw [List.cons_append, splitDeclarationsFrom, ih, hkept]
      rfl
    | comment star =>
      have hkept : ((Place.comment star).next c).kept t current = current := by
        by_cases hclosed : c = '/' ∧ star = true
        · rw [Place.next, if_pos hclosed] at htail ⊢
          rw [htail.eq_nil]
          rfl
        · rw [Place.next, if_neg hclosed]
          rfl
      rw [List.cons_append, splitDeclarationsFrom, ih, hkept]
      rfl

/-- A string belongs to the declaration being read, closed or not. -/
theorem splitDeclarationsFrom_takeString (hq : isSheetQuote q = true) (depth : Nat) (current s : List Char) :
    splitDeclarationsFrom .code depth current (q :: s) =
      splitDeclarationsFrom .code depth ((q :: (takeString q s).1).reverse ++ current) (takeString q s).2 := by
  have hstring := splitDeclarationsFrom_passed (passed_takeString hq s) depth (q :: current)
  rw [takeString_append] at hstring
  have hkept : Place.kept (takeString q s).1 (q :: current) (.string q false) =
      (q :: (takeString q s).1).reverse ++ current := by
    rw [List.reverse_cons, List.append_assoc, List.singleton_append]
    rfl
  rw [splitDeclarationsFrom_code (not_comment_of_ne (ne_slash_of_quote hq) s), if_pos hq, hstring, hkept]

/-- A comment is left out, closed or not. -/
theorem splitDeclarationsFrom_takeComment (depth : Nat) (current s : List Char) :
    splitDeclarationsFrom .code depth current ('/' :: '*' :: s) =
      splitDeclarationsFrom .code depth current (takeComment s).2 := by
  have hcomment := splitDeclarationsFrom_passed (passed_takeComment (s := s) fun h => absurd h Bool.false_ne_true)
    depth current
  rw [takeComment_append] at hcomment
  rw [splitDeclarationsFrom, hcomment]
  rfl

/-! ## The end of a block -/

/-- A round of the search for the brace that closes a block: the offset that the search is at, and how many blocks are
open. -/
def closeRound (text : List Char) (t : Nat × Nat) : Option (Round (Nat × Nat) (Option Nat)) :=
  match startAt? text t.1 with
  | none => some (.done none)
  | some .comment => do
    let stop ← commentEnd? text t.1
    some (.next (stop, t.2))
  | some (.string q) => do
    let stop ← stringEnd? text q t.1
    some (.next (stop, t.2))
  | some (.other b) =>
    if b = '{' then some (.next (t.1 + 1, t.2 + 1))
    else if b = '}' then do
      let depth ← back? t.2 1
      if depth = 0 then some (.done (some t.1)) else some (.next (t.1 + 1, depth))
    else some (.next (t.1 + 1, t.2))

/-- Every round of the search for a closing brace moves on, wherever it is. -/
theorem advances_closeRound (text : List Char) : Text.Advances text Prod.fst (closeRound text) := by
  intro t u h
  rw [closeRound] at h
  split at h
  next => cases h
  next hstart =>
    obtain ⟨stop, hstop, hlt, -⟩ := isBoundary_commentEnd? hstart
    rw [hstop] at h
    cases h
    exact ⟨lt_byteSize_of_startAt? hstart, hlt⟩
  next q hstart =>
    obtain ⟨stop, hstop, hlt, -⟩ := isBoundary_stringEnd? hstart
    rw [hstop] at h
    cases h
    exact ⟨lt_byteSize_of_startAt? hstart, hlt⟩
  next hstart =>
    refine ⟨lt_byteSize_of_startAt? hstart, ?_⟩
    split at h
    next =>
      cases h
      exact Nat.lt_succ_self t.1
    next =>
      split at h
      next =>
        obtain ⟨depth, -, h⟩ := Option.bind_eq_some_iff.1 h
        split at h
        next => cases h
        next =>
          cases h
          exact Nat.lt_succ_self t.1
      next =>
        cases h
        exact Nat.lt_succ_self t.1

/-- Where the brace stands that closes a block. -/
def blockEnd? (text : List Char) (start : Nat) : Option (Option Nat) := loop (advances_closeRound text) (start, 1)

/-- The texts that a scan comes to: comments and strings are passed as a whole. -/
@[elab_as_elim]
theorem scan_induction {P : List Char → Prop} (nil : P []) (comment : ∀ s, P (takeComment s).2 → P ('/' :: '*' :: s))
    (string : ∀ q s, isSheetQuote q = true → P (takeString q s).2 → P (q :: s))
    (other : ∀ c s, isSheetQuote c = false → ¬ ['/', '*'] <+: c :: s → (∀ r, r.length ≤ s.length → P r) → P (c :: s))
    (s : List Char) : P s := by
  induction hn : s.length using Nat.strong_induction_on generalizing s with | _ n ih
  subst hn
  cases s with
  | nil => exact nil
  | cons c s =>
    by_cases hcomment : ['/', '*'] <+: c :: s
    · obtain ⟨s, hs⟩ := hcomment
      cases hs
      have hlength := length_takeComment_snd s
      exact comment s (ih _ (Nat.lt_succ_of_le (Nat.le_succ_of_le hlength)) _ rfl)
    · by_cases hquote : isSheetQuote c = true
      · exact string c s hquote (ih _ (Nat.lt_succ_of_le (length_takeString_snd c s)) _ rfl)
      · exact other c s (Bool.eq_false_iff.2 hquote) hcomment fun r hr => ih _ (Nat.lt_succ_of_le hr) r rfl

theorem closeRound_of_large {depth : Nat} (hbyte : byteAt? text i = some d) (hd : 128 ≤ d.toNat) :
    closeRound text (i, depth) = some (.next (i + 1, depth)) := by
  have hopen : d ≠ '{' := Text.ne_of_large hd (by decide)
  have hclose : d ≠ '}' := Text.ne_of_large hd (by decide)
  simp only [closeRound, startAt?_of_large hbyte hd, if_neg hopen, if_neg hclose]

/-- At a character that begins no comment and no string a round goes by the character. -/
theorem closeRound_other {s : List Char} (hquote : isSheetQuote c = false) (hcomment : ¬ ['/', '*'] <+: c :: s)
    (h : StandsAt text i (c :: s)) (depth : Nat) :
    closeRound text (i, depth + 1) =
      some (if c = '{' then .next (i + 1, depth + 1 + 1)
        else if c = '}' then
          match depth with
          | 0 => .done (some i)
          | depth + 1 => .next (i + 1, depth + 1)
        else .next (i + 1, depth + 1)) := by
  obtain ⟨d, hstart, halike⟩ := exists_startAt?_other hquote hcomment h
  simp only [closeRound, hstart, halike '{' (by decide), halike '}' (by decide)]
  split
  next => rfl
  next =>
    split
    next => cases depth <;> rfl
    next => rfl

/-- **The search for the brace that closes a block** finds the one that the block is read up to, `depth` further blocks
being open. -/
theorem loop_closeRound (h : StandsAt text i rest) (depth : Nat) :
    loop (advances_closeRound text) (i, depth + 1) =
      some ((takeBlock? .code depth rest).map fun p => i + byteSize p.1) := by
  have hfront (t : List Char) (p : Option (List Char × List Char)) (i : Nat) :
      (inFront t p).map (fun p => i + byteSize p.1) = p.map fun p => i + byteSize t + byteSize p.1 := by
    cases p with
    | none => rfl
    | some p => simp only [inFront, Option.map_some, Text.byteSize_append, Nat.add_assoc]
  induction rest using scan_induction generalizing i depth with
  | nil =>
    have hround : closeRound text (i, depth + 1) = some (.done none) := by
      simp only [closeRound, startAt?_end h (Nat.le_refl i)]
    rw [Text.loop_of_done hround]
    rfl
  | comment s ih =>
    have hround : closeRound text (i, depth + 1) =
        some (.next (i + byteSize ('/' :: '*' :: (takeComment s).1), depth + 1)) := by
      simp only [closeRound, startAt?_comment h, commentEnd?_eq h]
      rfl
    rw [Text.loop_of_next hround, ih (standsAt_takeComment h), takeBlock?_takeComment, hfront]
  | string q s hq ih =>
    have hround : closeRound text (i, depth + 1) =
        some (.next (i + byteSize (q :: (takeString q s).1), depth + 1)) := by
      simp only [closeRound, startAt?_string hq h, stringEnd?_eq hq h]
      rfl
    rw [Text.loop_of_next hround, ih (standsAt_takeString h), takeBlock?_takeString hq, hfront]
  | other c s hquote hcomment ih =>
    have hround := closeRound_other hquote hcomment h depth
    have hbehind := h.cons
    have hascii (hc : c.toNat < 128) : i + c.utf8Size = i + 1 := by rw [Text.utf8Size_of_ascii hc]
    rw [takeBlock?_code depth hcomment, if_neg (Bool.eq_false_iff.1 hquote)]
    by_cases hopen : c = '{'
    · rw [if_pos hopen] at hround ⊢
      rw [Text.loop_of_next hround, ← hascii (hopen ▸ by decide), ih s (Nat.le_refl _) hbehind, hfront,
        Text.byteSize_singleton]
    · rw [if_neg hopen] at hround ⊢
      by_cases hclose : c = '}'
      · rw [if_pos hclose] at hround ⊢
        cases depth with
        | zero =>
          rw [Text.loop_of_done hround]
          rfl
        | succ depth =>
          dsimp only at hround ⊢
          rw [Text.loop_of_next hround, ← hascii (hclose ▸ by decide), ih s (Nat.le_refl _) hbehind, hfront,
            Text.byteSize_singleton]
      · rw [if_neg hclose] at hround ⊢
        rw [Text.loop_of_next hround, h.loop_inside (fun j => (j, depth + 1))
          (fun _ _ hbyte hlarge => closeRound_of_large hbyte hlarge) (Nat.lt_succ_self i)
          (Nat.add_le_add_left c.utf8Size_pos i), ih s (Nat.le_refl _) hbehind, hfront, Text.byteSize_singleton]

theorem blockEnd?_eq (h : StandsAt text i rest) :
    blockEnd? text i = some ((takeBlock? .code 0 rest).map fun p => i + byteSize p.1) :=
  loop_closeRound h 0

/-- The closing brace that is found is a character of its own, and so is what stands behind it. -/
theorem isBoundary_blockEnd? (h : Text.IsBoundary text i) (hclose : blockEnd? text i = some (some j)) :
    i ≤ j ∧ Text.IsBoundary text j ∧ Text.IsBoundary text (j + 1) := by
  obtain ⟨rest, hplace⟩ := h
  rw [blockEnd?_eq hplace] at hclose
  obtain ⟨⟨body, r⟩, hblock, rfl⟩ := Option.map_eq_some_iff.1 (Option.some.inj hclose)
  rw [eq_of_takeBlock? hblock] at hplace
  exact ⟨Nat.le_add_right _ _, hplace.append.isBoundary, (hplace.append.cons_ascii (by decide)).isBoundary⟩

end ClientBuild.Style
