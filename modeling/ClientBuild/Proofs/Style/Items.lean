import ClientBuild.Proofs.Text.Search
import ClientBuild.Style.Sheet

/-!
# Items of a stylesheet

A stylesheet is a sequence of items: comments, statements up to their semicolon, and blocks with what
stands in front of them, strings and comments being closed.  `IsItem` is a grammar of items that does
not know of the scan.  Behind an item the scan is where it began (`exists_pieces_append`), so a sheet is
adapted item by item and an at-rule from the inside (`written_compositional`).
-/

namespace ClientBuild.Style

/-! ## The grammar -/

/-- What follows the quote `q` that opens a string, with the one that closes it. -/
inductive StringRest (q : Char) : List Char → Prop where
  | close : StringRest q [q]
  | escaped (c : Char) {s : List Char} : StringRest q s → StringRest q ('\\' :: c :: s)
  | char {c : Char} {s : List Char} : c ≠ q → c ≠ '\\' → StringRest q s → StringRest q (c :: s)

theorem stringRest_of_forall {q : Char} {s : List Char} (h : ∀ c ∈ s, c ≠ q ∧ c ≠ '\\') : StringRest q (s ++ [q]) := by
  induction s with
  | nil => exact .close
  | cons c s ih =>
    obtain ⟨⟨hquote, hescape⟩, hs⟩ := List.forall_mem_cons.1 h
    exact .char hquote hescape (ih hs)

/-- A closed comment: it ends where its end stands first. -/
def IsComment (s : List Char) : Prop :=
  ∃ t, ¬ ['*', '/'] <:+: t ++ ['*'] ∧ s = '/' :: '*' :: (t ++ ['*', '/'])

/-- What stands in a comment from somewhere to its end, behind a star that may begin its end or not. -/
inductive CommentRest : Bool → List Char → Prop where
  | close : CommentRest true ['/']
  | char {star : Bool} {c : Char} {s : List Char} : ¬ (c = '/' ∧ star = true) → CommentRest (decide (c = '*')) s →
      CommentRest star (c :: s)

/-- Text in which the characters that `stops` accepts stand in closed strings and comments only. -/
inductive Run (stops : Char → Bool) : List Char → Prop where
  | nil : Run stops []
  | char {c : Char} {s : List Char} : isSheetQuote c = false → stops c = false →
      ¬ ['/', '*'] <+: c :: s → Run stops s → Run stops (c :: s)
  | string {q : Char} {t s : List Char} : isSheetQuote q = true → StringRest q t → Run stops s →
      Run stops (q :: (t ++ s))
  | comment {t s : List Char} : IsComment t → Run stops s → Run stops (t ++ s)

/-- A brace. -/
def isBrace (c : Char) : Bool := c == '{' || c == '}'

/-- A character that ends what stands in front of a block or in a statement. -/
def endsPrelude (c : Char) : Bool := c == ';' || c == '{'

/-- What stands in a block: its braces open and close each other. -/
inductive IsBlock : List Char → Prop where
  | run {s : List Char} : Run isBrace s → IsBlock s
  | nested {t body s : List Char} : Run isBrace t → IsBlock body → IsBlock s →
      IsBlock (t ++ '{' :: (body ++ '}' :: s))

/-- An item of a stylesheet. -/
inductive IsItem : List Char → Prop where
  | comment {blanks t : List Char} : (∀ c ∈ blanks, Text.isBlank c = true) → IsComment t →
      IsItem (blanks ++ t)
  | statement {t : List Char} : Run endsPrelude t → IsItem (t ++ [';'])
  | block {prelude body : List Char} : Run endsPrelude prelude → IsBlock body →
      IsItem (prelude ++ '{' :: (body ++ ['}']))

theorem not_comment_of_ne {c : Char} (hc : c ≠ '/') (s : List Char) : ¬ ['/', '*'] <+: c :: s :=
  fun hp => hc (List.cons_prefix_cons.1 hp).1.symm

/-- Text without quotes and slashes is passed over as it is. -/
theorem Run.of_forall {stops : Char → Bool} : ∀ {s : List Char},
    (∀ c ∈ s, isSheetQuote c = false ∧ stops c = false ∧ c ≠ '/') → Run stops s
  | [], _ => .nil
  | c :: s, h => by
    obtain ⟨⟨hquote, hstop, hslash⟩, hs⟩ := List.forall_mem_cons.1 h
    exact .char hquote hstop (not_comment_of_ne hslash s) (Run.of_forall hs)

/-! ## Strings and comments are taken as a whole -/

theorem takeComment_cons {c : Char} {s : List Char} (h : ¬ ['*', '/'] <+: c :: s) :
    takeComment (c :: s) = pushFront c (takeComment s) := by
  rw [takeComment.eq_def]
  split
  next heq => cases heq
  next t heq =>
    cases heq
    exact absurd (List.prefix_append ['*', '/'] t) h
  next heq =>
    cases heq
    rfl

/-- Where its end stands first, a comment goes on to there. -/
theorem commentRest_of_first {t : List Char} (ht : ¬ ['*', '/'] <:+: t ++ ['*']) :
    ∀ {star : Bool}, (star = true → t.head? ≠ some '/') → CommentRest star (t ++ ['*', '/']) := by
  induction t with
  | nil => exact fun _ => .char (fun h => absurd h.1 (by decide)) .close
  | cons c t ih =>
    intro star hstar
    refine .char (fun hc => hstar hc.2 (congrArg some hc.1)) (ih (fun hp => ?_) fun hc hslash => ?_)
    · exact ht (hp.trans (List.suffix_cons c _).isInfix)
    · obtain rfl := of_decide_eq_true hc
      obtain ⟨t, rfl⟩ := List.head?_eq_some_iff.1 hslash
      exact ht ⟨[], t ++ ['*'], rfl⟩

theorem IsComment.exists_rest {s : List Char} (h : IsComment s) : ∃ t, s = '/' :: '*' :: t ∧ CommentRest false t := by
  obtain ⟨t, ht, rfl⟩ := h
  exact ⟨t ++ ['*', '/'], rfl, commentRest_of_first ht fun hstar => by cases hstar⟩

theorem takeComment_of_first : ∀ {t : List Char}, ¬ ['*', '/'] <:+: t ++ ['*'] → ∀ s : List Char,
    takeComment (t ++ '*' :: '/' :: s) = (t ++ ['*', '/'], s)
  | [], _, _ => rfl
  | c :: t, h, s => by
    have hrest : ¬ ['*', '/'] <:+: t ++ ['*'] := fun hp =>
      h (hp.trans (List.suffix_cons c _).isInfix)
    have hhere : ¬ ['*', '/'] <+: c :: (t ++ '*' :: '/' :: s) := by
      rintro ⟨r, hr⟩
      refine h ?_
      cases t with
      | nil => cases hr
      | cons d t =>
        cases hr
        exact ⟨[], t ++ ['*'], rfl⟩
    rw [List.cons_append, takeComment_cons hhere, takeComment_of_first hrest s]
    rfl

theorem takeString_of_rest {q : Char} (hq : isSheetQuote q = true) {t : List Char}
    (h : StringRest q t) (s : List Char) : takeString q (t ++ s) = (t, s) := by
  have hescape : q ≠ '\\' := by
    rintro rfl
    cases hq
  induction h with
  | close => simp [takeString, hescape]
  | escaped c _ ih => simp [takeString, ih, pushFront]
  | char hne hback _ ih => simp [takeString, hne, hback, ih, pushFront]

/-- Put a text in front of the first part of a pair, if there is one. -/
def inFront (t : List Char) (p : Option (List Char × List Char)) : Option (List Char × List Char) :=
  p.map fun q => (t ++ q.1, q.2)

@[simp] theorem inFront_nil (p : Option (List Char × List Char)) : inFront [] p = p := by
  cases p <;> rfl

theorem inFront_append (a b : List Char) (p : Option (List Char × List Char)) :
    inFront (a ++ b) p = inFront a (inFront b p) := by
  cases p <;> simp [inFront]

theorem map_pushFront (c : Char) (p : Option (List Char × List Char)) :
    p.map (pushFront c) = inFront [c] p := by
  cases p <;> rfl

variable (depth : Nat)

/-- One step of the search for a brace in a string or comment. -/
theorem takeBlock?_inside {p : Place} (hp : p ≠ .code) (c : Char) (s : List Char) :
    takeBlock? p depth (c :: s) = inFront [c] (takeBlock? (p.next c) depth s) := by
  rw [takeBlock?.eq_def, ← map_pushFront]
  split
  next heq => cases heq
  next => exact absurd rfl hp
  next => exact absurd rfl hp
  next heq =>
    cases heq
    rfl

theorem takeBlock?_string {q : Char} (hq : isSheetQuote q = true) {t : List Char}
    (h : StringRest q t) (s : List Char) :
    takeBlock? (.string q false) depth (t ++ s) = inFront t (takeBlock? .code depth s) := by
  have hescape : q ≠ '\\' := by
    rintro rfl
    cases hq
  induction h with
  | close => simp [takeBlock?, Place.next, hescape, map_pushFront]
  | @escaped c t _ ih =>
    rw [show '\\' :: c :: t = ['\\'] ++ ([c] ++ t) from rfl, inFront_append, inFront_append, ← ih]
    simp [takeBlock?, Place.next, map_pushFront]
  | @char c t hne hback _ ih =>
    rw [show c :: t = [c] ++ t from rfl, inFront_append, ← ih]
    simp [takeBlock?, Place.next, hne, hback, map_pushFront]

theorem takeBlock?_comment {star : Bool} {t : List Char} (h : CommentRest star t) (s : List Char) :
    takeBlock? (.comment star) depth (t ++ s) = inFront t (takeBlock? .code depth s) := by
  induction h with
  | close => simp [takeBlock?, Place.next, map_pushFront]
  | @char star c t hgoes _ ih =>
    have hin : (Place.comment star).next c = .comment (decide (c = '*')) := by rw [Place.next, if_neg hgoes]
    rw [List.cons_append, takeBlock?_inside depth (by simp), hin, ih, ← inFront_append, List.singleton_append]

/-- One step of the search for a brace where no comment begins. -/
theorem takeBlock?_code {c : Char} {s : List Char} (hcomment : ¬ ['/', '*'] <+: c :: s) :
    takeBlock? .code depth (c :: s) =
      if isSheetQuote c then inFront [c] (takeBlock? (.string c false) depth s)
      else if c = '{' then inFront [c] (takeBlock? .code (depth + 1) s)
      else if c = '}' then
        match depth with
        | 0 => some ([], s)
        | d + 1 => inFront [c] (takeBlock? .code d s)
      else inFront [c] (takeBlock? .code depth s) := by
  rw [takeBlock?.eq_def]
  simp only [map_pushFront]
  split
  next heq => cases heq
  next heq =>
    cases heq
    exact absurd (List.prefix_append ['/', '*'] _) hcomment
  next heq =>
    cases heq
    rfl
  next => exact absurd rfl ‹¬ Place.code = Place.code›

theorem takeBlock?_char {c : Char} {s : List Char} (hquote : isSheetQuote c = false)
    (hbrace : isBrace c = false) (hcomment : ¬ ['/', '*'] <+: c :: s) :
    takeBlock? .code depth (c :: s) = inFront [c] (takeBlock? .code depth s) := by
  simp only [isBrace, Bool.or_eq_false_iff, beq_eq_false_iff_ne] at hbrace
  rw [takeBlock?_code depth hcomment]
  simp [hquote, hbrace.1, hbrace.2]

/-- A comment does not begin with the last character of one text and the first of another one that is
no star. -/
theorem not_comment_append {c d : Char} {s : List Char} (hd : d ≠ '*')
    (h : ¬ ['/', '*'] <+: c :: s) (rest : List Char) : ¬ ['/', '*'] <+: c :: (s ++ d :: rest) := by
  intro hp
  cases s with
  | nil => exact hd (List.cons_prefix_cons.1 (List.cons_prefix_cons.1 hp).2).1.symm
  | cons e s =>
    obtain ⟨hc, hp⟩ := List.cons_prefix_cons.1 hp
    have he : '*' = e := (List.cons_prefix_cons.1 hp).1
    exact h ⟨s, by rw [hc, he]; rfl⟩

theorem ne_slash_of_quote {q : Char} (hq : isSheetQuote q = true) : q ≠ '/' := by
  rintro rfl
  cases hq

/-- Text without braces of its own is passed over. -/
theorem takeBlock?_run {t : List Char} (h : Run isBrace t) {d : Char} (hd : d ≠ '*')
    (s : List Char) :
    takeBlock? .code depth (t ++ d :: s) = inFront t (takeBlock? .code depth (d :: s)) := by
  induction h with
  | nil => simp
  | @char c t hquote hbrace hcomment _ ih =>
    rw [List.cons_append, takeBlock?_char depth hquote hbrace (not_comment_append hd hcomment s),
      ih, ← inFront_append, List.singleton_append]
  | @string q u t hq hu _ ih =>
    have hopen : takeBlock? .code depth (q :: (u ++ (t ++ d :: s))) =
        inFront [q] (takeBlock? (.string q false) depth (u ++ (t ++ d :: s))) := by
      rw [takeBlock?_code depth (not_comment_of_ne (ne_slash_of_quote hq) _), if_pos hq]
    rw [List.cons_append, List.append_assoc, hopen, takeBlock?_string depth hq hu, ih,
      ← inFront_append, ← inFront_append, List.singleton_append, List.cons_append]
  | @comment u t hu _ ih =>
    obtain ⟨v, rfl, hv⟩ := hu.exists_rest
    rw [List.append_assoc, List.cons_append, List.cons_append, takeBlock?, takeBlock?_comment depth hv, ih]
    cases takeBlock? .code depth (d :: s) <;> simp [inFront, pushFront]

/-- **The closing brace of a block is found**, whatever follows. -/
theorem takeBlock?_block {body : List Char} (h : IsBlock body) :
    ∀ {depth : Nat} {d : Char} (_ : d ≠ '*') (s : List Char),
      takeBlock? .code depth (body ++ d :: s) = inFront body (takeBlock? .code depth (d :: s)) := by
  have hopen (depth : Nat) (s : List Char) :
      takeBlock? .code depth ('{' :: s) = inFront ['{'] (takeBlock? .code (depth + 1) s) := by
    rw [takeBlock?_code depth (not_comment_of_ne (by decide) s)]
    simp [isSheetQuote]
  have hclose (depth : Nat) (s : List Char) :
      takeBlock? .code (depth + 1) ('}' :: s) = inFront ['}'] (takeBlock? .code depth s) := by
    rw [takeBlock?_code (depth + 1) (not_comment_of_ne (by decide) s)]
    simp [isSheetQuote]
  induction h with
  | run ht => exact fun hd s => takeBlock?_run _ ht hd s
  | @nested t body u ht _ _ ihbody ihrest =>
    intro depth d hd s
    have hsplit : t ++ '{' :: (body ++ '}' :: u) ++ d :: s =
        t ++ '{' :: (body ++ '}' :: (u ++ d :: s)) := by simp
    rw [hsplit, takeBlock?_run depth ht (by decide), hopen, ihbody (by decide), hclose, ihrest hd,
      ← inFront_append, ← inFront_append, ← inFront_append, ← inFront_append]
    simp

theorem takeBlock?_of_block {body : List Char} (h : IsBlock body) (s : List Char) :
    takeBlock? .code 0 (body ++ '}' :: s) = some (body, s) := by
  rw [takeBlock?_block h (by decide), takeBlock?_code 0 (not_comment_of_ne (by decide) s)]
  simp [isSheetQuote, inFront]

/-! ## One step of the scan -/

variable (pending : List Char)

theorem piecesFrom_char {c : Char} {s : List Char} (hquote : isSheetQuote c = false)
    (hend : endsPrelude c = false) (hcomment : ¬ ['/', '*'] <+: c :: s) :
    piecesFrom pending (c :: s) = piecesFrom (c :: pending) s := by
  simp only [endsPrelude, Bool.or_eq_false_iff, beq_eq_false_iff_ne] at hend
  rw [piecesFrom]
  · simp [hquote, hend.1, hend.2]
  · rintro t rfl rfl
    exact hcomment (List.prefix_append ['/', '*'] t)

theorem piecesFrom_string {q : Char} (hq : isSheetQuote q = true) {t : List Char}
    (h : StringRest q t) (s : List Char) :
    piecesFrom pending (q :: (t ++ s)) = piecesFrom ((q :: t).reverse ++ pending) s := by
  rw [piecesFrom]
  · simp [hq, takeString_of_rest hq h]
  · rintro _ rfl _
    exact ne_slash_of_quote hq rfl

/-- A comment ends the text in front of it only if that is blank. -/
theorem piecesFrom_comment {t : List Char} (h : IsComment t) (s : List Char) :
    piecesFrom pending (t ++ s) =
      if Text.startsWith ['/', '*'] (Text.trimLeft (pending.reverse ++ t)) then
        .verbatim (pending.reverse ++ t) :: piecesFrom [] s
      else piecesFrom (t.reverse ++ pending) s := by
  obtain ⟨u, hu, rfl⟩ := h
  have hsplit : '/' :: '*' :: (u ++ ['*', '/']) ++ s = '/' :: '*' :: (u ++ '*' :: '/' :: s) := by simp
  rw [hsplit, piecesFrom]
  simp only [takeComment_of_first hu]
  congr 2
  simp

theorem piecesFrom_semicolon (s : List Char) :
    piecesFrom pending (';' :: s) = .verbatim (pending.reverse ++ [';']) :: piecesFrom [] s := by
  rw [piecesFrom]
  · simp [isSheetQuote]
  · exact fun _ h => by cases h

/-- The pieces of a block with its prelude. -/
def blockPieces (prelude body : List Char) : List Piece :=
  if (Text.trim prelude).head? == some '@' then
    if body.contains '{' then .verbatim (prelude ++ ['{']) :: pieces body ++ [.verbatim ['}']]
    else [.verbatim (prelude ++ '{' :: body ++ ['}'])]
  else [.rule prelude body]

/-- A block that is closed, with what stands in front of it. -/
theorem piecesFrom_closed {s body r : List Char} (h : takeBlock? .code 0 s = some (body, r)) :
    piecesFrom pending ('{' :: s) = blockPieces pending.reverse body ++ piecesFrom [] r := by
  rw [piecesFrom]
  · have hquote : ¬ isSheetQuote '{' = true := by decide
    rw [if_neg hquote, if_neg (by decide), if_pos rfl]
    split
    next hnone => simp [h] at hnone
    next b r hsome =>
      rw [h] at hsome
      cases hsome
      rw [blockPieces, pieces]
      by_cases hat : (Text.trim pending.reverse).head? = some '@' <;>
        by_cases hnested : '{' ∈ body <;> simp [hat, hnested]
  · exact fun _ h => by cases h

/-- A block that is not closed is a piece with all that follows it. -/
theorem piecesFrom_unclosed {s : List Char} (h : takeBlock? .code 0 s = none) :
    piecesFrom pending ('{' :: s) = [.verbatim (pending.reverse ++ '{' :: s)] := by
  rw [piecesFrom]
  · have hquote : ¬ isSheetQuote '{' = true := by decide
    rw [if_neg hquote, if_neg (by decide), if_pos rfl]
    split
    next => rfl
    next hsome =>
      rw [h] at hsome
      cases hsome
  · exact fun _ h => by cases h

theorem piecesFrom_block {body : List Char} (h : IsBlock body) (s : List Char) :
    piecesFrom pending ('{' :: (body ++ '}' :: s)) =
      blockPieces pending.reverse body ++ piecesFrom [] s :=
  piecesFrom_closed pending (takeBlock?_of_block h s)

/-! ## Behind an item the scan is where it began -/

/-- What stands in front of a block or semicolon gives pieces and leaves a text pending, whatever
follows it. -/
theorem exists_piecesFrom_run {t : List Char} (h : Run endsPrelude t) :
    ∀ pending, ∃ out left, ∀ {c : Char} (_ : c ≠ '*') (s : List Char),
      piecesFrom pending (t ++ c :: s) = out ++ piecesFrom left (c :: s) := by
  induction h with
  | nil => exact fun pending => ⟨[], pending, fun _ _ => rfl⟩
  | @char d t hquote hend hcomment _ ih =>
    intro pending
    obtain ⟨out, left, hrun⟩ := ih (d :: pending)
    refine ⟨out, left, fun hc s => ?_⟩
    rw [List.cons_append, piecesFrom_char pending hquote hend (not_comment_append hc hcomment s),
      hrun hc s]
  | @string q u t hq hu _ ih =>
    intro pending
    obtain ⟨out, left, hrun⟩ := ih ((q :: u).reverse ++ pending)
    refine ⟨out, left, fun hc s => ?_⟩
    rw [List.cons_append, List.append_assoc, piecesFrom_string pending hq hu, hrun hc s]
  | @comment u t hu _ ih =>
    intro pending
    by_cases hflush : Text.startsWith ['/', '*'] (Text.trimLeft (pending.reverse ++ u)) = true
    · obtain ⟨out, left, hrun⟩ := ih []
      refine ⟨.verbatim (pending.reverse ++ u) :: out, left, fun hc s => ?_⟩
      rw [List.append_assoc, piecesFrom_comment pending hu, if_pos hflush, hrun hc s,
        List.cons_append]
    · obtain ⟨out, left, hrun⟩ := ih (u.reverse ++ pending)
      refine ⟨out, left, fun hc s => ?_⟩
      rw [List.append_assoc, piecesFrom_comment pending hu, if_neg hflush, hrun hc s]

/-- Blanks are text that is pending. -/
theorem piecesFrom_blanks (s : List Char) : ∀ {blanks pending : List Char},
    (∀ c ∈ blanks, Text.isBlank c = true) →
      piecesFrom pending (blanks ++ s) = piecesFrom (blanks.reverse ++ pending) s
  | [], _, _ => rfl
  | c :: blanks, pending, h => by
    obtain ⟨hc, hblanks⟩ := List.forall_mem_cons.1 h
    have hne {d : Char} (hd : Text.isBlank d = false) : c ≠ d := by
      rintro rfl
      rw [hc] at hd
      cases hd
    rw [List.cons_append, piecesFrom_char pending, piecesFrom_blanks s hblanks]
    · simp
    · simp [isSheetQuote, hne (d := '"') (by decide), hne (d := '\'') (by decide)]
    · simp [endsPrelude, hne (d := ';') (by decide), hne (d := '{') (by decide)]
    · exact not_comment_of_ne (hne (by decide)) _

/-- **Behind an item the scan is where it began.** -/
theorem exists_pieces_append {item : List Char} (h : IsItem item) :
    ∃ out, ∀ s, pieces (item ++ s) = out ++ pieces s := by
  cases h with
  | @comment blanks t hblanks ht =>
    have hflush : Text.startsWith ['/', '*'] (Text.trimLeft (blanks ++ t)) = true := by
      obtain ⟨u, _, rfl⟩ := ht
      rw [Text.trimLeft_append_of_blank hblanks, Text.trimLeft, List.dropWhile_cons_of_neg (by decide)]
      rfl
    refine ⟨[.verbatim (blanks ++ t)], fun s => ?_⟩
    rw [pieces, List.append_assoc, piecesFrom_blanks _ hblanks, piecesFrom_comment _ ht]
    simp only [List.append_nil, List.reverse_reverse, hflush, if_true]
    rfl
  | @statement t ht =>
    obtain ⟨out, left, hrun⟩ := exists_piecesFrom_run ht []
    refine ⟨out ++ [.verbatim (left.reverse ++ [';'])], fun s => ?_⟩
    rw [pieces, List.append_assoc, List.singleton_append, hrun (by decide), piecesFrom_semicolon,
      List.append_assoc]
    rfl
  | @block prelude body hprelude hbody =>
    obtain ⟨out, left, hrun⟩ := exists_piecesFrom_run hprelude []
    refine ⟨out ++ blockPieces left.reverse body, fun s => ?_⟩
    have hsplit : prelude ++ '{' :: (body ++ ['}']) ++ s = prelude ++ '{' :: (body ++ '}' :: s) := by
      simp
    rw [pieces, hsplit, hrun (by decide), piecesFrom_block _ hbody, List.append_assoc]
    rfl

/-- What stands in front of the block of an at-rule is one text, comments in it included. -/
theorem piecesFrom_run_of_at {t : List Char} (h : Run endsPrelude t) :
    ∀ {pending : List Char}, (Text.trimLeft (pending.reverse ++ t)).head? = some '@' →
      ∀ {c : Char} (_ : c ≠ '*') (s : List Char),
        piecesFrom pending (t ++ c :: s) = piecesFrom (t.reverse ++ pending) (c :: s) := by
  induction h with
  | nil => exact fun _ _ _ _ => rfl
  | @char d t hquote hend hcomment _ ih =>
    intro pending hat c hc s
    rw [List.cons_append, piecesFrom_char pending hquote hend (not_comment_append hc hcomment s),
      ih (by simpa using hat) hc s]
    simp
  | @string q u t hq hu _ ih =>
    intro pending hat c hc s
    rw [List.cons_append, List.append_assoc, piecesFrom_string pending hq hu,
      ih (by simpa using hat) hc s]
    simp
  | @comment u t hu _ ih =>
    intro pending hat c hc s
    have hkeep : ¬ Text.startsWith ['/', '*'] (Text.trimLeft (pending.reverse ++ u)) = true := by
      intro hflush
      obtain ⟨r, hr⟩ := Option.isSome_iff_exists.1 hflush
      rw [← List.append_assoc, Text.trimLeft_append (Text.after?_eq_some_iff.1 hr)] at hat
      cases hat
    rw [List.append_assoc, piecesFrom_comment pending hu, if_neg hkeep,
      ih (by simpa using hat) hc s]
    simp

theorem head?_trimLeft_of_trim {c : Char} {s : List Char} (h : (Text.trim s).head? = some c) :
    (Text.trimLeft s).head? = some c := by
  obtain ⟨r, _, hr⟩ := Text.exists_eq_append_trimRight (Text.trimLeft s)
  obtain ⟨t, ht⟩ := List.head?_eq_some_iff.1 h
  rw [hr, ← Text.trim, ht]
  rfl

/-- The pieces of an at-rule with rules in it. -/
theorem pieces_atRule {prelude body : List Char} (hprelude : Run endsPrelude prelude)
    (hat : (Text.trim prelude).head? = some '@') (hbody : IsBlock body) (hnested : '{' ∈ body) :
    pieces (prelude ++ '{' :: (body ++ ['}'])) =
      .verbatim (prelude ++ ['{']) :: (pieces body ++ [.verbatim ['}'], .verbatim []]) := by
  have hstart : (Text.trimLeft (([] : List Char).reverse ++ prelude)).head? = some '@' :=
    head?_trimLeft_of_trim hat
  have hrun := piecesFrom_run_of_at hprelude hstart (by decide : '{' ≠ '*') (body ++ ['}'])
  rw [pieces, hrun, piecesFrom_block _ hbody, blockPieces]
  simp [hat, hnested, piecesFrom]

/-! ## What is written out -/

variable (st : StyleSettings)

/-- The stylesheet that is written out: the text itself where nothing changes. -/
def written (sheet : List Char) : Except Failure (List Char) :=
  (adaptSheet? st sheet).map fun out => out.getD sheet

theorem written_eq (sheet : List Char) :
    written st sheet =
      (checkPlaces st ((pieces sheet).flatMap Piece.numbers)).map fun _ => adaptSheet st sheet := by
  rw [written, adaptSheet?]
  cases checkPlaces st ((pieces sheet).flatMap Piece.numbers) with
  | error e => rfl
  | ok _ =>
    by_cases h : adaptSheet st sheet = sheet <;> simp [Except.map, h]

theorem checkPlaces_append (a b : List (List Char)) :
    checkPlaces st (a ++ b) = checkPlaces st a >>= fun _ => checkPlaces st b := by
  simp only [checkPlaces, List.find?_append]
  cases a.find? fun n => maxPlaces < places st n <;> rfl

/-- Texts that no number is converted in are no obstacle. -/
theorem written_of_pieces {sheet : List Char} {out : List Piece} {s : List Char}
    (h : pieces sheet = out ++ pieces s) :
    written st sheet = (do
      checkPlaces st (out.flatMap Piece.numbers)
      let rest ← written st s
      pure (out.flatMap (Piece.adapt st) ++ rest)) := by
  have hadapt : adaptSheet st sheet = out.flatMap (Piece.adapt st) ++ adaptSheet st s := by
    rw [adaptSheet, h, List.flatMap_append, ← adaptSheet]
  rw [written_eq, written_eq, hadapt, h, List.flatMap_append, checkPlaces_append]
  cases checkPlaces st (out.flatMap Piece.numbers) with
  | error e => rfl
  | ok _ => cases checkPlaces st ((pieces s).flatMap Piece.numbers) <;> rfl

theorem written_nil : written st [] = .ok [] := by
  rw [written_eq, adaptSheet, pieces, piecesFrom]
  rfl

/-- **An item is adapted apart from what follows it.** -/
theorem written_append {item : List Char} (h : IsItem item) (s : List Char) :
    written st (item ++ s) = (do
      let out ← written st item
      let rest ← written st s
      pure (out ++ rest)) := by
  obtain ⟨out, hout⟩ := exists_pieces_append h
  have halone := written_of_pieces st (hout [])
  rw [written_nil, List.append_nil] at halone
  rw [written_of_pieces st (hout s), halone]
  cases checkPlaces st (out.flatMap Piece.numbers) with
  | error e => rfl
  | ok _ => simp [bind, Except.bind, pure, Except.pure]

theorem written_flatten (b : List Char) : ∀ {items : List (List Char)}, (∀ i ∈ items, IsItem i) →
    written st (items.flatten ++ b) = do
      let outs ← items.mapM (written st)
      let last ← written st b
      pure (outs.flatten ++ last)
  | [], _ => by
    rw [List.flatten_nil, List.nil_append, List.mapM_nil]
    cases written st b <;> rfl
  | i :: items, h => by
    obtain ⟨hi, hitems⟩ := List.forall_mem_cons.1 h
    rw [List.flatten_cons, List.append_assoc, written_append st hi, written_flatten b hitems,
      List.mapM_cons]
    cases written st i with
    | error e => rfl
    | ok out =>
      cases items.mapM (written st) with
      | error e => rfl
      | ok outs =>
        cases written st b with
        | error e => rfl
        | ok last => simp [bind, Except.bind, pure, Except.pure]

/-- **The rules in an at-rule are adapted like a stylesheet of their own.** -/
theorem written_atRule {prelude body : List Char} (hprelude : Run endsPrelude prelude)
    (hat : (Text.trim prelude).head? = some '@') (hbody : IsBlock body) (hnested : '{' ∈ body) :
    written st (prelude ++ '{' :: (body ++ ['}'])) = (do
      let out ← written st body
      pure (prelude ++ '{' :: (out ++ ['}']))) := by
  rw [written_eq, written_eq, adaptSheet, pieces_atRule hprelude hat hbody hnested, adaptSheet]
  simp only [List.flatMap_cons, List.flatMap_append, Piece.numbers, Piece.adapt, List.flatMap_nil,
    List.append_nil, List.nil_append]
  cases checkPlaces st ((pieces body).flatMap Piece.numbers) with
  | error e => rfl
  | ok _ => simp [Except.map, bind, Except.bind, pure, Except.pure]

/-- **Adapting a stylesheet is compositional**: every item is adapted apart from what stands around it,
and the block of an at-rule like a stylesheet of its own.  So a value recorded in one rule is never seen
in another one. -/
theorem written_compositional :
    (∀ (items : List (List Char)) (b : List Char), (∀ i ∈ items, IsItem i) →
      written st (items.flatten ++ b) = do
        let outs ← items.mapM (written st)
        let last ← written st b
        pure (outs.flatten ++ last)) ∧
    ∀ prelude body : List Char, Run endsPrelude prelude → (Text.trim prelude).head? = some '@' →
      IsBlock body → '{' ∈ body →
        written st (prelude ++ '{' :: (body ++ ['}'])) = (do
          let out ← written st body
          pure (prelude ++ '{' :: (out ++ ['}']))) :=
  ⟨fun _ b h => written_flatten st b h,
    fun _ _ hprelude hat hbody hnested => written_atRule st hprelude hat hbody hnested⟩

/-- The second rule does not see the value that the first one records; the one in the at-rule is
adapted as it is alone. -/
theorem written_compositional_recorded :
    (∀ i ∈ [".a".toList ++ '{' :: ("--tw-x: 1; color: var(--tw-x)".toList ++ ['}'])], IsItem i) ∧
    (Run endsPrelude "@media print ".toList ∧
      (Text.trim "@media print ".toList).head? = some '@' ∧
      IsBlock (".p".toList ++ '{' :: ("padding: 1rem".toList ++ '}' :: [])) ∧
      '{' ∈ ".p".toList ++ '{' :: ("padding: 1rem".toList ++ '}' :: [])) ∧
    (written {} ([".a".toList ++ '{' :: ("--tw-x: 1; color: var(--tw-x)".toList ++ ['}'])].flatten ++
        ".b\x7bcolor: var(--tw-x)\x7d".toList)).toOption =
      some ".a \x7b\n\tcolor: 1;\n\x7d.b \x7b\n\tcolor: none;\n\x7d".toList ∧
    (written {} ("@media print ".toList ++ '{' ::
        ((".p".toList ++ '{' :: ("padding: 1rem".toList ++ '}' :: [])) ++ ['}']))).toOption =
      some "@media print \x7b.p \x7b\n\tpadding: 28rpx;\n\x7d\x7d".toList := by
  have hitems : ∀ i ∈ [".a".toList ++ '{' :: ("--tw-x: 1; color: var(--tw-x)".toList ++ ['}'])],
      IsItem i := by
    intro i hi
    rw [List.mem_singleton.1 hi]
    exact .block (.of_forall (by decide)) (.run (.of_forall (by decide)))
  have hprelude : Run endsPrelude "@media print ".toList := .of_forall (by decide)
  have hat : (Text.trim "@media print ".toList).head? = some '@' := by decide
  have hbody : IsBlock (".p".toList ++ '{' :: ("padding: 1rem".toList ++ '}' :: [])) :=
    .nested (.of_forall (by decide)) (.run (.of_forall (by decide))) (.run .nil)
  have hnested : '{' ∈ ".p".toList ++ '{' :: ("padding: 1rem".toList ++ '}' :: []) := by decide
  refine ⟨hitems, ⟨hprelude, hat, hbody, hnested⟩, ?_, ?_⟩
  · rw [(written_compositional {}).1 _ _ hitems]
    decide +kernel
  · rw [(written_compositional {}).2 _ _ hprelude hat hbody hnested]
    decide +kernel

end ClientBuild.Style
