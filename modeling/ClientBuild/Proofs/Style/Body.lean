import ClientBuild.Proofs.Style.CustomProperties
import ClientBuild.Proofs.Text.Replace
import ClientBuild.Proofs.Text.Words

/-!
# The body of a rule

A body lists its declarations with semicolons between them and blanks and comments around them (`Lists`).  The
grammar of a declaration (`IsDeclaration`) does not know of the scan: strings are closed, parentheses
balance, and semicolons and the openings of comments stand where they do not count.  Such a body is split into
exactly its declarations, and it is adapted declaration by declaration: each of them leaves at most one line,
which depends on the values recorded before it only (`body_listed`).
-/

namespace ClientBuild.Style

/-! ## The grammar -/

/-- Text with closed strings and balanced parentheses in which no comment begins.  Only in parentheses a
semicolon may stand. -/
inductive Balanced : (inParens : Bool) → List Char → Prop where
  | nil {p : Bool} : Balanced p []
  | char {p : Bool} {c : Char} {s : List Char} : isSheetQuote c = false → c ≠ '(' → c ≠ ')' →
      (c = ';' → p = true) → ¬ ['/', '*'] <+: c :: s → Balanced p s → Balanced p (c :: s)
  | string {p : Bool} {q : Char} {t s : List Char} : isSheetQuote q = true → StringRest q t →
      Balanced p s → Balanced p (q :: (t ++ s))
  | parens {p : Bool} {inner s : List Char} : Balanced true inner → Balanced p s →
      Balanced p ('(' :: (inner ++ ')' :: s))

/-- A declaration as a body may list it. -/
structure IsDeclaration (d : List Char) : Prop where
  nonempty : d ≠ []
  trimmed : Text.trim d = d
  balanced : Balanced false d

/-- What may stand around a declaration: blanks and closed comments. -/
inductive Gap : List Char → Prop where
  | nil : Gap []
  | blank {c : Char} {s : List Char} : Text.isBlank c = true → Gap s → Gap (c :: s)
  | comment {t s : List Char} : IsComment t → Gap s → Gap (t ++ s)

/-- A body that lists some declarations.  There may be a semicolon behind the last one. -/
inductive Lists : List (List Char) → List Char → Prop where
  | nil {gap : List Char} : Gap gap → Lists [] gap
  | last {gap d gap' : List Char} : Gap gap → IsDeclaration d → Gap gap' →
      Lists [d] (gap ++ (d ++ gap'))
  | cons {gap d gap' s : List Char} {ds : List (List Char)} : Gap gap → IsDeclaration d →
      Gap gap' → Lists ds s → Lists (d :: ds) (gap ++ (d ++ (gap' ++ ';' :: s)))

/-- Plain text is balanced in front of what is. -/
theorem Balanced.append_of_forall {p : Bool} {s : List Char} (hs : Balanced p s) :
    ∀ {t : List Char}, (∀ c ∈ t, isSheetQuote c = false ∧ c ∉ "();/".toList) → Balanced p (t ++ s)
  | [], _ => hs
  | c :: t, h => by
    obtain ⟨⟨hquote, hplain⟩, ht⟩ := List.forall_mem_cons.1 h
    simp only [show "();/".toList = ['(', ')', ';', '/'] by decide, List.mem_cons, List.not_mem_nil,
      or_false, not_or] at hplain
    obtain ⟨hopen, hclose, hsemicolon, hslash⟩ := hplain
    exact .char hquote hopen hclose (fun h => absurd h hsemicolon) (not_comment_of_ne hslash _)
      (hs.append_of_forall ht)

/-! ## Splitting -/

section Splitting

variable {depth : Nat} {current : List Char}

/-- No comment begins with the last character of a text where no star follows. -/
theorem not_comment_append_of_head {c : Char} {t s : List Char} (h : ¬ ['/', '*'] <+: c :: t)
    (hs : s.head? ≠ some '*') : ¬ ['/', '*'] <+: c :: (t ++ s) := by
  cases s with
  | nil => rwa [List.append_nil]
  | cons d s => exact not_comment_append (fun hd => hs (congrArg some hd)) h s

theorem splitDeclarationsFrom_code {c : Char} {s : List Char} (hcomment : ¬ ['/', '*'] <+: c :: s) :
    splitDeclarationsFrom .code depth current (c :: s) =
      if isSheetQuote c then splitDeclarationsFrom (.string c false) depth (c :: current) s
      else if c = '(' then splitDeclarationsFrom .code (depth + 1) (c :: current) s
      else if c = ')' then splitDeclarationsFrom .code (depth - 1) (c :: current) s
      else if c = ';' ∧ depth = 0 then
        addDeclaration current.reverse (splitDeclarationsFrom .code depth [] s)
      else splitDeclarationsFrom .code depth (c :: current) s := by
  rw [splitDeclarationsFrom.eq_def]
  split
  next h => cases h
  next h =>
    cases h
    exact absurd (List.prefix_append ['/', '*'] _) hcomment
  next h =>
    cases h
    rfl
  next hplace _ => cases hplace
  next hplace _ => cases hplace

/-- A closed string belongs to the declaration being read. -/
theorem splitDeclarationsFrom_string {q : Char} (hq : isSheetQuote q = true) {t : List Char}
    (h : StringRest q t) (s : List Char) :
    splitDeclarationsFrom (.string q false) depth current (t ++ s) =
      splitDeclarationsFrom .code depth (t.reverse ++ current) s := by
  have hescape : q ≠ '\\' := by
    rintro rfl
    cases hq
  induction h generalizing current with
  | close => simp [splitDeclarationsFrom, Place.next, hescape]
  | escaped c _ ih => simp [splitDeclarationsFrom, Place.next, ih]
  | char hne hback _ ih => simp [splitDeclarationsFrom, Place.next, hne, hback, ih]

/-- In a comment everything is skipped up to its end. -/
theorem splitDeclarationsFrom_inComment {star : Bool} {t : List Char} (h : CommentRest star t) (s : List Char) :
    splitDeclarationsFrom (.comment star) depth current (t ++ s) = splitDeclarationsFrom .code depth current s := by
  induction h with
  | close => simp [splitDeclarationsFrom, Place.next]
  | char hgoes _ ih => rw [List.cons_append, splitDeclarationsFrom, Place.next, if_neg hgoes, ih]

/-- A closed comment is left out. -/
theorem splitDeclarationsFrom_comment {t : List Char} (h : IsComment t) (s : List Char) :
    splitDeclarationsFrom .code depth current (t ++ s) =
      splitDeclarationsFrom .code depth current s := by
  obtain ⟨u, rfl, hu⟩ := h.exists_rest
  rw [List.cons_append, List.cons_append, splitDeclarationsFrom]
  exact splitDeclarationsFrom_inComment hu s

/-- Of what stands around a declaration only blanks are read. -/
theorem Gap.exists_blanks {gap : List Char} (h : Gap gap) :
    ∃ blanks, (∀ c ∈ blanks, Text.isBlank c = true) ∧ ∀ (current s : List Char),
      splitDeclarationsFrom .code 0 current (gap ++ s) =
        splitDeclarationsFrom .code 0 (blanks ++ current) s := by
  induction h with
  | nil => exact ⟨[], by simp, fun _ _ => rfl⟩
  | @blank c gap hc _ ih =>
    obtain ⟨blanks, hblanks, hread⟩ := ih
    have hplain : ∀ d ∈ "\"'();/".toList, Text.isBlank d = false := by decide
    have hne {d : Char} (hd : d ∈ "\"'();/".toList) : c ≠ d := by
      rintro rfl
      exact absurd hc (by rw [hplain c hd]; decide)
    refine ⟨blanks ++ [c], ?_, fun current s => ?_⟩
    · exact List.forall_mem_append.2 ⟨hblanks, List.forall_mem_singleton.2 hc⟩
    · rw [List.cons_append, splitDeclarationsFrom_code (not_comment_of_ne (hne (by decide)) _)]
      have hquote : isSheetQuote c = false := by
        simp [isSheetQuote, hne (d := '"') (by decide), hne (d := '\'') (by decide)]
      rw [if_neg (by simp [hquote]), if_neg (hne (by decide)), if_neg (hne (by decide)),
        if_neg fun h => hne (by decide) h.1, hread, List.append_assoc, List.singleton_append]
  | @comment t gap ht _ ih =>
    obtain ⟨blanks, hblanks, hread⟩ := ih
    exact ⟨blanks, hblanks, fun current s => by
      rw [List.append_assoc, splitDeclarationsFrom_comment ht, hread]⟩

theorem Gap.head?_append_ne {gap s : List Char} (h : Gap gap) (hs : s.head? ≠ some '*') :
    (gap ++ s).head? ≠ some '*' := by
  cases h with
  | nil => exact hs
  | blank hc =>
    rintro heq
    cases heq
    exact absurd hc (by decide)
  | comment ht =>
    obtain ⟨u, -, rfl⟩ := ht
    exact fun heq => by cases heq

/-- **Balanced text belongs to the declaration being read**, and the scan is behind it where it began. -/
theorem splitDeclarationsFrom_balanced {p : Bool} {t : List Char} (h : Balanced p t) :
    ∀ {depth : Nat} {current s : List Char}, (p = true → depth ≠ 0) → s.head? ≠ some '*' →
      splitDeclarationsFrom .code depth current (t ++ s) =
        splitDeclarationsFrom .code depth (t.reverse ++ current) s := by
  induction h with
  | nil => intros; rfl
  | @char p c t hquote hopen hclose hsemicolon hcomment _ ih =>
    intro depth current s hdepth hs
    rw [List.cons_append, splitDeclarationsFrom_code (not_comment_append_of_head hcomment hs),
      if_neg (by simp [hquote]), if_neg hopen, if_neg hclose,
      if_neg fun h => hdepth (hsemicolon h.1) h.2, ih hdepth hs]
    simp
  | @string p q u t hq hu _ ih =>
    intro depth current s hdepth hs
    rw [List.cons_append, splitDeclarationsFrom_code (not_comment_of_ne (ne_slash_of_quote hq) _),
      if_pos hq, List.append_assoc, splitDeclarationsFrom_string hq hu, ih hdepth hs]
    simp
  | @parens p inner t _ _ ihinner ih =>
    intro depth current s hdepth hs
    have hinner := @ihinner (depth + 1) ('(' :: current) (')' :: (t ++ s)) (fun _ => Nat.succ_ne_zero depth) (by simp)
    have hclose := @splitDeclarationsFrom_code (depth + 1) (inner.reverse ++ '(' :: current) _ _
      (not_comment_of_ne (c := ')') (by decide) (t ++ s))
    rw [if_neg (by decide), if_neg (by decide), if_pos rfl, Nat.add_sub_cancel, ih hdepth hs] at hclose
    have hsplit : '(' :: (inner ++ ')' :: t) ++ s = '(' :: (inner ++ ')' :: (t ++ s)) := by simp
    rw [hsplit, splitDeclarationsFrom_code (not_comment_of_ne (by decide) _), if_neg (by decide),
      if_pos rfl, hinner, hclose]
    simp

end Splitting

theorem addDeclaration_of_trim {t d : List Char} (h : Text.trim t = d) (hne : d ≠ [])
    (ds : List (List Char)) : addDeclaration t ds = d :: ds := by
  rw [addDeclaration, h]
  cases d with
  | nil => exact absurd rfl hne
  | cons c d => rfl

/-- Reading a declaration with what stands around it. -/
theorem splitDeclarationsFrom_declaration {gap d gap' : List Char} (hgap : Gap gap) (hd : IsDeclaration d)
    (hgap' : Gap gap') {s : List Char} (hs : s.head? ≠ some '*') :
    ∃ current, Text.trim current.reverse = d ∧
      splitDeclarationsFrom .code 0 [] (gap ++ (d ++ (gap' ++ s))) =
        splitDeclarationsFrom .code 0 current s := by
  obtain ⟨l, hl, hfront⟩ := hgap.exists_blanks
  obtain ⟨r, hr, hbehind⟩ := hgap'.exists_blanks
  refine ⟨r ++ (d.reverse ++ l), ?_, ?_⟩
  · rw [List.reverse_append, List.reverse_append, List.reverse_reverse, List.append_assoc]
    exact (Text.trim_append_of_blank (fun c hc => hl c (List.mem_reverse.1 hc))
      (fun c hc => hr c (List.mem_reverse.1 hc)) d).trans hd.trimmed
  · rw [hfront, List.append_nil, splitDeclarationsFrom_balanced hd.balanced (fun h => by cases h)
      (hgap'.head?_append_ne hs), hbehind]

/-- **A body is split into the declarations that it lists.** -/
theorem splitDeclarations_of_lists {ds : List (List Char)} {body : List Char} (h : Lists ds body) :
    splitDeclarations body = ds := by
  rw [splitDeclarations]
  induction h with
  | @nil gap hgap =>
    obtain ⟨blanks, hblanks, hread⟩ := hgap.exists_blanks
    have hempty : Text.trim blanks.reverse = [] := by
      have hall : Text.trimLeft (blanks.reverse ++ []) = Text.trimLeft [] :=
        Text.trimLeft_append_of_blank fun c hc => hblanks c (List.mem_reverse.1 hc)
      rw [List.append_nil] at hall
      rw [Text.trim, hall]
      rfl
    have hend := hread [] []
    rw [List.append_nil] at hend
    rw [hend, List.append_nil, splitDeclarationsFrom, addDeclaration, hempty]
  | @last gap d gap' hgap hd hgap' =>
    obtain ⟨current, hcurrent, hread⟩ :=
      splitDeclarationsFrom_declaration hgap hd hgap' (s := []) (by simp)
    rw [List.append_nil] at hread
    rw [hread, splitDeclarationsFrom, addDeclaration_of_trim hcurrent hd.nonempty]
  | @cons gap d gap' s ds hgap hd hgap' _ ih =>
    obtain ⟨current, hcurrent, hread⟩ :=
      splitDeclarationsFrom_declaration hgap hd hgap' (s := ';' :: s) (by simp)
    rw [hread, splitDeclarationsFrom_code (not_comment_of_ne (by decide) _), if_neg (by decide),
      if_neg (by decide), if_neg (by decide), if_pos ⟨rfl, rfl⟩, ih,
      addDeclaration_of_trim hcurrent hd.nonempty]

/-! ## Adapting -/

variable (st : StyleSettings) (selector : List Char)

/-- What is recorded for a declaration. -/
def recorded? (d : List Char) : Option (List Char × List Char) :=
  match parts? d with
  | some (property, value) =>
    if isRecordedProperty property then some (property, convertUnits st value) else none
  | none => none

/-- What is recorded behind some declarations of a rule, the latest first. -/
def recordedIn (earlier : List (List Char)) : Recorded := (earlier.filterMap (recorded? st)).reverse

/-- The line of a declaration, if it stays. -/
def line? (rec : Recorded) (d : List Char) : Option (List Char) :=
  match parts? d with
  | some (property, value) =>
    if isRecordedProperty property || isDropped selector property value then none
    else
      let (property', value') := adapt st rec selector property value
      some (property' ++ ": ".toList ++ value')
  | none => some d

/-- Does a declaration stay with its property and its value? -/
def IsKept (rec : Recorded) (d : List Char) : Prop :=
  ∀ property value, parts? d = some (property, value) →
    isRecordedProperty property = false ∧ isDropped selector property value = false ∧
      adapt st rec selector property value = (property, value)

/-- The declarations of a list, each with those in front of it. -/
def withEarlier (earlier : List (List Char)) :
    List (List Char) → List (List (List Char) × List Char)
  | [] => []
  | d :: ds => (earlier, d) :: withEarlier (earlier ++ [d]) ds

/-- The lines of a body: at most one for a declaration, in view of what is recorded in front of it. -/
def bodyLines (ds : List (List Char)) : List (List Char) :=
  (withEarlier [] ds).filterMap fun (earlier, d) => line? st selector (recordedIn st earlier) d

/-- The value that the last of some declarations gives to a property. -/
def lastValue? (ds : List (List Char)) (property : List Char) : Option (List Char) :=
  ((ds.filterMap parts?).reverse.find? fun d => d.1 == property).map Prod.snd

theorem recordedIn_concat (earlier : List (List Char)) (d : List Char) :
    recordedIn st (earlier ++ [d]) = (recorded? st d).toList ++ recordedIn st earlier := by
  rw [recordedIn, recordedIn, List.filterMap_append, List.reverse_append]
  cases h : recorded? st d <;> simp [h]

theorem mem_withEarlier {earlier front : List (List Char)} {d : List Char} :
    ∀ {ds : List (List Char)}, (front, d) ∈ withEarlier earlier ds ↔
      ∃ between later, ds = between ++ d :: later ∧ front = earlier ++ between
  | [] => by simp [withEarlier]
  | e :: ds => by
    rw [withEarlier, List.mem_cons, Prod.mk.injEq, mem_withEarlier]
    constructor
    · rintro (⟨rfl, rfl⟩ | ⟨between, later, rfl, rfl⟩)
      · exact ⟨[], ds, rfl, (List.append_nil _).symm⟩
      · exact ⟨e :: between, later, rfl, by rw [List.append_assoc, List.singleton_append]⟩
    · rintro ⟨between, later, hsplit, rfl⟩
      cases between with
      | nil =>
        cases hsplit
        exact Or.inl ⟨List.append_nil _, rfl⟩
      | cons e' between =>
        cases hsplit
        exact Or.inr ⟨between, later, rfl, by rw [List.append_assoc, List.singleton_append]⟩

/-- One declaration of a body. -/
theorem adaptAll_cons (rec : Recorded) (d : List Char) (ds : List (List Char)) :
    (adaptAll st selector rec (d :: ds)).1 =
        (line? st selector rec d).toList ++
          (adaptAll st selector ((recorded? st d).toList ++ rec) ds).1 ∧
      ((adaptAll st selector rec (d :: ds)).2 = false ↔ IsKept st selector rec d ∧
        (adaptAll st selector ((recorded? st d).toList ++ rec) ds).2 = false) := by
  rw [adaptAll, line?, recorded?, IsKept]
  split
  next hnone => simp [hnone]
  next property value hparts =>
    simp only [hparts]
    split
    next hrecorded => simp [hrecorded]
    next hrecorded =>
      split
      next hdropped => simp [hdropped]
      next hdropped =>
        simp only [Bool.not_eq_true] at hrecorded hdropped
        simp [hrecorded, hdropped, Prod.ext_iff, and_assoc]

/-- The declarations of a body one after the other. -/
theorem adaptAll_eq : ∀ (ds earlier : List (List Char)),
    (adaptAll st selector (recordedIn st earlier) ds).1 = (withEarlier earlier ds).filterMap
        (fun (earlier, d) => line? st selector (recordedIn st earlier) d) ∧
      ((adaptAll st selector (recordedIn st earlier) ds).2 = false ↔
        ∀ p ∈ withEarlier earlier ds, IsKept st selector (recordedIn st p.1) p.2)
  | [], earlier => by simp [adaptAll, withEarlier]
  | d :: ds, earlier => by
    obtain ⟨hlines, hchanged⟩ := adaptAll_cons st selector (recordedIn st earlier) d ds
    obtain ⟨ihlines, ihchanged⟩ := adaptAll_eq ds (earlier ++ [d])
    rw [← recordedIn_concat] at hlines hchanged
    rw [withEarlier, List.forall_mem_cons, hchanged, ihchanged, hlines, ihlines]
    refine ⟨?_, Iff.rfl⟩
    cases h : line? st selector (recordedIn st earlier) d <;> simp [h]

theorem lastValue?_concat (earlier : List (List Char)) (d name : List Char) :
    lastValue? (earlier ++ [d]) name =
      match parts? d with
      | some (property, value) => if property = name then some value else lastValue? earlier name
      | none => lastValue? earlier name := by
  rw [lastValue?, lastValue?, List.filterMap_append, List.reverse_append]
  cases h : parts? d with
  | none => simp [h]
  | some p => by_cases hp : p.1 = name <;> simp [h, hp]

/-- A reference to a recorded property finds the last value given to it. -/
theorem recordedValue_recordedIn (earlier : List (List Char)) {name : List Char}
    (hname : isRecordedProperty name = true) :
    recordedValue (recordedIn st earlier) name =
      ((lastValue? earlier name).map (convertUnits st)).getD "none".toList := by
  induction earlier using List.reverseRecOn with
  | nil => rfl
  | append_singleton earlier d ih =>
    rw [recordedIn_concat, lastValue?_concat, recorded?]
    cases parts? d with
    | none => exact ih
    | some p =>
      obtain ⟨property, value⟩ := p
      by_cases hproperty : property = name
      · subst hproperty
        simp [recordedValue, hname]
      · by_cases hrecorded : isRecordedProperty property = true
        · simpa [recordedValue, hrecorded, hproperty] using ih
        · simpa [hrecorded, hproperty] using ih

/-- A body is put out line by line if some declaration does not stay as it is. -/
theorem adaptBody?_eq (body : List Char) :
    adaptBody? st selector body = none ∧ (∀ earlier d later,
        splitDeclarations body = earlier ++ d :: later → IsKept st selector (recordedIn st earlier) d) ∨
      adaptBody? st selector body = some (printed (bodyLines st selector (splitDeclarations body))) ∧
        ∃ earlier d later, splitDeclarations body = earlier ++ d :: later ∧
          ¬ IsKept st selector (recordedIn st earlier) d := by
  generalize hds : splitDeclarations body = ds
  obtain ⟨hlines, hchanged⟩ := adaptAll_eq st selector ds []
  have hbody : adaptBody? st selector body =
      if (adaptAll st selector (recordedIn st []) ds).2 = true then
        some (printed (bodyLines st selector ds))
      else none := by
    rw [adaptBody?, hds, bodyLines, ← hlines]
    rfl
  rw [hbody]
  split
  next htrue =>
    refine Or.inr ⟨rfl, ?_⟩
    have hnot : ¬ ∀ p ∈ withEarlier [] ds, IsKept st selector (recordedIn st p.1) p.2 := fun hall => by
      rw [hchanged.2 hall] at htrue
      cases htrue
    push Not at hnot
    obtain ⟨⟨earlier, d⟩, hmem, hnot⟩ := hnot
    obtain ⟨_, later, hsplit, rfl⟩ := mem_withEarlier.1 hmem
    exact ⟨_, d, later, hsplit, hnot⟩
  next hfalse =>
    refine Or.inl ⟨rfl, fun earlier d later hsplit => ?_⟩
    exact hchanged.1 (Bool.eq_false_iff.2 hfalse) (earlier, d)
      (mem_withEarlier.2 ⟨earlier, later, hsplit, rfl⟩)

/-- **The body of a rule** that lists some declarations is split into exactly these.  If all of them stay
with property and value, nothing is put out for it, else the lines of those that stay, one after the other,
where a reference sees what is recorded before it in the rule. -/
theorem body_listed {ds : List (List Char)} {body : List Char} (h : Lists ds body) :
    splitDeclarations body = ds ∧
      ((∀ earlier d later, ds = earlier ++ d :: later →
          IsKept st selector (recordedIn st earlier) d) → adaptBody? st selector body = none) ∧
      ((∃ earlier d later, ds = earlier ++ d :: later ∧
          ¬ IsKept st selector (recordedIn st earlier) d) →
        adaptBody? st selector body = some (printed (bodyLines st selector ds))) ∧
      ∀ earlier d later argument, ds = earlier ++ d :: later →
        Text.startsWith "--tw-".toList (Text.trim (argument.takeWhile (· != ','))) = true →
          resolveReference (recordedIn st earlier) argument =
            ((lastValue? earlier (Text.trim (argument.takeWhile (· != ',')))).map
              (convertUnits st)).getD "none".toList := by
  have hsplit := splitDeclarations_of_lists h
  subst hsplit
  have hbody := adaptBody?_eq st selector body
  refine ⟨rfl, fun hall => ?_, ?_, ?_⟩
  · obtain ⟨hnone, -⟩ | ⟨-, earlier, d, later, hsplit, hnot⟩ := hbody
    · exact hnone
    · exact absurd (hall earlier d later hsplit) hnot
  · rintro ⟨earlier, d, later, hsplit, hnot⟩
    obtain ⟨-, hall⟩ | ⟨hlines, -⟩ := hbody
    · exact absurd (hall earlier d later hsplit) hnot
    · exact hlines
  · intro earlier d later argument _ hname
    rw [resolveReference]
    simp only [hname, if_true]
    exact recordedValue_recordedIn st earlier
      (Text.contains_iff.2 (Text.startsWith_iff.1 hname).isInfix)

/-- Semicolons, quotes, parentheses and comments where they do not count, and a reference. -/
theorem body_listed_hidden :
    Lists ["--tw-a: 1rem".toList, "content: \";\\\"/*)\"".toList, "background: url(x;'(')".toList,
        "width: var(--tw-a)".toList]
      " --tw-a: 1rem; /* ;\"( */content: \";\\\"/*)\" ;background: url(x;'(');width: var(--tw-a)/**/".toList ∧
    adaptBody? {} ".a".toList
        " --tw-a: 1rem; /* ;\"( */content: \";\\\"/*)\" ;background: url(x;'(');width: var(--tw-a)/**/".toList =
      some "\n\tcontent: \";\\\"/*)\";\n\tbackground: url(x;'(');\n\twidth: 28rpx;\n".toList := by
  have hrecorded : IsDeclaration "--tw-a: 1rem".toList :=
    ⟨by decide, by decide, Balanced.nil.append_of_forall (t := "--tw-a: 1rem".toList) (by decide)⟩
  have hcontent : IsDeclaration "content: \";\\\"/*)\"".toList := by
    have hstring : StringRest '"' [';', '\\', '"', '/', '*', ')', '"'] :=
      .char (by decide) (by decide) <| .escaped '"' <| .char (by decide) (by decide) <|
        .char (by decide) (by decide) <| .char (by decide) (by decide) .close
    exact ⟨by decide, by decide, Balanced.append_of_forall (t := "content: ".toList)
      (.string (by decide) hstring .nil) (by decide)⟩
  have hurl : IsDeclaration "background: url(x;'(')".toList := by
    have hinner : Balanced true ['x', ';', '\'', '(', '\''] :=
      .char (by decide) (by decide) (by decide) (by decide) (by decide) <|
        .char (by decide) (by decide) (by decide) (by decide) (by decide) <|
          .string (t := ['(', '\'']) (by decide) (.char (by decide) (by decide) .close) .nil
    exact ⟨by decide, by decide, Balanced.append_of_forall (t := "background: url".toList)
      (.parens hinner .nil) (by decide)⟩
  have hreference : IsDeclaration "width: var(--tw-a)".toList :=
    ⟨by decide, by decide, Balanced.append_of_forall (t := "width: var".toList)
      (.parens (Balanced.nil.append_of_forall (t := "--tw-a".toList) (by decide)) .nil) (by decide)⟩
  have hcomment : Gap " /* ;\"( */".toList :=
    .blank (by decide) (.comment (t := "/* ;\"( */".toList) ⟨" ;\"( ".toList, by decide, by decide⟩ .nil)
  have hend : Gap "/**/".toList := .comment (t := "/**/".toList) ⟨[], by decide, by decide⟩ .nil
  have hlists : Lists _
      " --tw-a: 1rem; /* ;\"( */content: \";\\\"/*)\" ;background: url(x;'(');width: var(--tw-a)/**/".toList :=
    (congrArg (Lists _) (by decide +kernel)).mp <|
      .cons (.blank (c := ' ') (by decide) .nil) hrecorded .nil <|
        .cons hcomment hcontent (.blank (c := ' ') (by decide) .nil) <|
          .cons .nil hurl .nil (.last .nil hreference hend)
  have hlost : ¬ IsKept {} ".a".toList (recordedIn {} []) "--tw-a: 1rem".toList := fun h =>
    absurd (h "--tw-a".toList "1rem".toList (by decide)).1 (by decide)
  have hbody := (body_listed {} ".a".toList hlists).2.2.1 ⟨[], _, _, rfl, hlost⟩
  exact ⟨hlists, hbody.trans (by decide +kernel)⟩

end ClientBuild.Style
