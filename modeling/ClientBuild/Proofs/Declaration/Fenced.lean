import ClientBuild.Proofs.Declaration.Calm
import ClientBuild.Proofs.Declaration.Lines

/-!
# Lines that an interface cannot begin

Behind the first line of a declaration, a brace opens in a comment or behind the name of a method: its line
begins with a tab, and a character stands between that is in front of no brace of an interface (`Fenced`).
Rewriting interfaces keeps that (`Fenced.interfacesToTypes`), because a match never reaches over such a
character, so that no other line than the first can begin an interface (`interfaceNames_of_fenced`).
-/

namespace ClientBuild.Declaration

variable {a b s : List Char}

/-! ## Reading a line -/

/-- What a reader knows of the line that a place is in. -/
inductive Lead where
  /-- It begins here. -/
  | start
  /-- It does not begin with a tab. -/
  | bare
  /-- It begins with a tab, and goes on with characters of a head only. -/
  | tab
  /-- It begins with a tab, and some character in it is in front of no brace of an interface. -/
  | safe
deriving DecidableEq

/-- What a reader knows behind one more character. -/
def Lead.next (q : Lead) (c : Char) : Lead :=
  if c = '\n' then .start
  else
    match q with
    | .start => if c = '\t' then .tab else .bare
    | .bare => .bare
    | .tab => if IsHeadChar c then .tab else .safe
    | .safe => .safe

/-- Does every brace open in a safe place?  The first line goes on from what is known of it. -/
def Fenced : Lead → List Char → Prop
  | _, [] => True
  | q, c :: s => (c = '{' → q = .safe) ∧ Fenced (q.next c) s

variable {q : Lead}

@[simp] theorem Lead.next_line (q : Lead) : q.next '\n' = .start := rfl

theorem fenced_line : Fenced q ('\n' :: s) ↔ Fenced .start s :=
  and_iff_right fun h => absurd h (by decide)

theorem fenced_append : Fenced q (a ++ b) ↔ Fenced q a ∧ Fenced (a.foldl Lead.next q) b := by
  induction a generalizing q with
  | nil => exact (and_iff_right trivial).symm
  | cons c a ih =>
    rw [List.cons_append, Fenced, ih, Fenced, and_assoc]
    rfl

theorem fenced_of_not_mem (h : '{' ∉ s) (q : Lead) : Fenced q s := by
  induction s generalizing q with
  | nil => trivial
  | cons c s ih =>
    obtain ⟨hc, hs⟩ := List.ne_and_not_mem_of_not_mem_cons h
    exact ⟨fun h => absurd h.symm hc, ih hs _⟩

/-- A text without braces in front of a line break can stand anywhere. -/
theorem fenced_append_line (ha : '{' ∉ a) : Fenced q (a ++ '\n' :: b) ↔ Fenced .start b := by
  rw [fenced_append, fenced_line]
  exact and_iff_right (fenced_of_not_mem ha q)

/-- A line without braces can stand in front. -/
theorem Fenced.behind_line (hb : Fenced .start b) (ha : '{' ∉ a) : Fenced q (a ++ '\n' :: b) :=
  (fenced_append_line ha).2 hb

/-- Up to the end of a line, what stays known behind one character stays known behind all. -/
theorem foldl_next_of_fixed (hq : ∀ c, c ≠ '\n' → q.next c = q) (h : '\n' ∉ s) : s.foldl Lead.next q = q := by
  induction s with
  | nil => rfl
  | cons c s ih =>
    obtain ⟨hc, hs⟩ := List.ne_and_not_mem_of_not_mem_cons h
    rw [List.foldl_cons, hq c hc.symm]
    exact ih hs

theorem foldl_next_safe (h : '\n' ∉ s) : s.foldl Lead.next .safe = .safe :=
  foldl_next_of_fixed (fun _ hc => if_neg hc) h

theorem foldl_next_bare (h : '\n' ∉ s) : s.foldl Lead.next .bare = .bare :=
  foldl_next_of_fixed (fun _ hc => if_neg hc) h

theorem foldl_next_tab (h : '\n' ∉ s) : s.foldl Lead.next .tab = .tab ∨ s.foldl Lead.next .tab = .safe := by
  induction s with
  | nil => exact Or.inl rfl
  | cons c s ih =>
    obtain ⟨hc, hs⟩ := List.ne_and_not_mem_of_not_mem_cons h
    rw [List.foldl_cons, Lead.next, if_neg hc.symm]
    split
    next => exact ih hs
    next => exact Or.inr (foldl_next_safe hs)

/-- In a safe place, braces can open up to the end of the line. -/
theorem fenced_safe_append (ha : '\n' ∉ a) : Fenced .safe (a ++ b) ↔ Fenced .safe b := by
  rw [fenced_append, foldl_next_safe ha]
  refine and_iff_right ?_
  induction a with
  | nil => trivial
  | cons c a ih =>
    obtain ⟨hc, ha⟩ := List.ne_and_not_mem_of_not_mem_cons ha
    refine ⟨fun _ => rfl, ?_⟩
    rw [Lead.next, if_neg hc.symm]
    exact ih ha

/-- Characters of a head make no place safe. -/
theorem safe_of_foldl_next (h : ∀ c ∈ s, IsHeadChar c) (hsafe : s.foldl Lead.next q = .safe) :
    q = .safe ∧ '\n' ∉ s := by
  induction s generalizing q with
  | nil => exact ⟨hsafe, List.not_mem_nil⟩
  | cons c s ih =>
    obtain ⟨hc, hs⟩ := List.forall_mem_cons.1 h
    obtain ⟨hnext, hline⟩ := ih hs hsafe
    have hne : c ≠ '\n' := by
      rintro rfl
      cases hnext
    refine ⟨?_, List.not_mem_cons_of_ne_of_not_mem hne.symm hline⟩
    unfold Lead.next at hnext
    rw [if_neg hne] at hnext
    cases q with
    | safe => rfl
    | start =>
      dsimp only at hnext
      split at hnext <;> cases hnext
    | bare => cases hnext
    | tab => rw [if_pos hc] at hnext; cases hnext

/-! ## Rewriting interfaces -/

/-- **Rewriting interfaces opens no brace elsewhere**: a match lies in its line, behind a character that makes
the place safe. -/
theorem Fenced.interfacesToTypes : ∀ {s : List Char} {q : Lead}, Fenced q s → Fenced q (interfacesToTypes s)
  | [], _, h => h
  | c :: s, q, h => by
    cases hfound : plainInterface (c :: s) with
    | none =>
      have hcons : Declaration.interfacesToTypes (c :: s) = c :: Declaration.interfacesToTypes s :=
        Text.replaceMatches_cons_of_none hfound
      rw [hcons]
      exact ⟨h.1, Fenced.interfacesToTypes h.2⟩
    | some p =>
      obtain ⟨t, n⟩ := p
      obtain ⟨head, name, body, rest, hat⟩ := exists_of_plainInterface hfound
      have hkeyword : ∀ c ∈ "interface".toList, Text.isWordAscii c = true := List.all_eq_true.1 (by decide)
      have hhead : ∀ c ∈ "interface".toList ++ head, IsHeadChar c := fun c hc =>
        (List.mem_append.1 hc).elim (fun hc => Or.inl (hkeyword c hc)) (hat.headChar c)
      rw [hat.text, fenced_append] at h
      obtain ⟨-, hopen, hblock⟩ := h
      obtain ⟨rfl, hline⟩ := safe_of_foldl_next hhead (hopen rfl)
      have hname : '\n' ∉ "type ".toList ++ name ++ " = \x7b".toList := by
        have hinside : '\n' ∉ name := fun hmem => hline (List.mem_append_right _ (hat.named.subset hmem))
        simp [hinside]
      have hshort : rest.length < (c :: s).length := by
        rw [hat.text]
        simp only [List.length_append, List.length_cons]
        omega
      rw [hopen rfl, Lead.next, if_neg (by decide)] at hblock
      obtain ⟨hbody, hclose⟩ := fenced_append.1 hblock
      rw [interfacesToTypes_of_some hfound, hat.drop, hat.type, List.append_assoc _ body, List.append_assoc,
        fenced_safe_append hname, List.append_assoc, fenced_append]
      exact ⟨hbody, hclose.1, Fenced.interfacesToTypes hclose.2⟩
termination_by s => s.length
decreasing_by
  · simp
  · exact hshort

theorem RewrittenTo.fenced {y : List Char} (h : RewrittenTo s y) (hs : Fenced q s) : Fenced q y := by
  rcases h with rfl | ⟨body, rest, -, rfl, rfl⟩
  · exact hs.interfacesToTypes
  · obtain ⟨hbody, hclose⟩ := fenced_append.1 hs
    exact fenced_append.2 ⟨hbody, hclose.1, hclose.2.interfacesToTypes⟩

/-! ## Names of interfaces -/

/-- The name of the exported interface that a line opens: what stands between the keyword and the brace, without
a space. -/
def interfaceName? (line : List Char) : Option String :=
  (Text.after? "export interface ".toList line).bind fun s =>
    let name := s.takeWhile (· != ' ')
    (Text.after? (name ++ " \x7b".toList) s).map fun _ => String.ofList name

/-- The names of the exported interfaces that the lines of a text open, in order. -/
def interfaceNames (text : List Char) : List String :=
  (Text.splitOn (· == '\n') text).filterMap interfaceName?

theorem interfaceName?_of_name {name : List Char} (hname : IsName name) (s : List Char) :
    interfaceName? ("export interface ".toList ++ name ++ " \x7b".toList ++ s) = some (String.ofList name) := by
  have hline : "export interface ".toList ++ name ++ " \x7b".toList ++ s =
      "export interface ".toList ++ (name ++ " \x7b".toList ++ s) := by simp only [List.append_assoc]
  have htake : (name ++ " \x7b".toList ++ s).takeWhile (· != ' ') = name := by
    rw [List.append_assoc]
    exact takeWhile_name hname ('{' :: s)
  rw [interfaceName?, hline, Text.after?_append, Option.bind_some]
  dsimp only
  rw [htake, Text.after?_append]
  rfl

theorem interfaceName?_of_not_prefix (h : ¬ "export interface ".toList <+: s) : interfaceName? s = none := by
  rw [interfaceName?, Text.after?_eq_none_iff.2 h]
  rfl

/-- A line that opens an interface does not begin with a tab. -/
theorem interfaceName?_of_fenced (hline : '\n' ∉ s) (h : Fenced .start s) : interfaceName? s = none := by
  rw [Option.eq_none_iff_forall_ne_some]
  intro name hname
  obtain ⟨t, ht, hname⟩ := Option.bind_eq_some_iff.1 hname
  obtain ⟨r, hr, -⟩ := Option.map_eq_some_iff.1 hname
  rw [Text.after?_eq_some_iff.1 ht, Text.after?_eq_some_iff.1 hr] at h hline
  generalize t.takeWhile (· != ' ') = front at h hline
  have hsplit : "export interface ".toList ++ (front ++ " \x7b".toList ++ r) =
      'e' :: ("xport interface ".toList ++ front ++ [' ']) ++ '{' :: r := by simp
  rw [hsplit] at h hline
  have hopen := (fenced_append.1 h).2.1 rfl
  have hfront : '\n' ∉ "xport interface ".toList ++ front ++ [' '] := fun hmem =>
    hline (List.mem_append_left _ (List.mem_cons_of_mem _ hmem))
  have hnext : Lead.start.next 'e' = .bare := by decide
  rw [List.foldl_cons, hnext, foldl_next_bare hfront] at hopen
  cases hopen

theorem interfaceNames_append_line (a b : List Char) :
    interfaceNames (a ++ '\n' :: b) = interfaceNames a ++ interfaceNames b := by
  rw [interfaceNames, Text.splitOn_append (by decide), List.filterMap_append]
  rfl

theorem interfaceNames_of_not_mem (h : '\n' ∉ s) : interfaceNames s = (interfaceName? s).toList := by
  rw [interfaceNames, splitOn_of_not_mem h, List.filterMap_cons]
  cases interfaceName? s <;> rfl

/-- **No line of a fenced text opens an interface.** -/
theorem interfaceNames_of_fenced {s : List Char} (h : Fenced .start s) : interfaceNames s = [] := by
  by_cases hmem : '\n' ∈ s
  · obtain ⟨l, r, hs, hl⟩ := List.eq_append_cons_of_mem hmem
    have hshort : r.length < s.length := by
      rw [hs, List.length_append, List.length_cons]
      omega
    rw [hs, fenced_append, fenced_line] at h
    rw [hs, interfaceNames_append_line, interfaceNames_of_not_mem hl, interfaceName?_of_fenced hl h.1,
      interfaceNames_of_fenced h.2]
    rfl
  · rw [interfaceNames_of_not_mem hmem, interfaceName?_of_fenced hmem h]
    rfl
termination_by s.length
decreasing_by exact hshort

/-- Behind the beginning of its first line, a fenced text opens no interface. -/
theorem interfaceNames_append_of_fenced {opening : List Char} {first : Option String} (hopening : '\n' ∉ opening)
    (hfirst : ∀ s, interfaceName? (opening ++ s) = first) (h : Fenced .bare s ∨ '\n' ∉ s) :
    interfaceNames (opening ++ s) = first.toList := by
  by_cases hmem : '\n' ∈ s
  · obtain ⟨l, r, rfl, hl⟩ := List.eq_append_cons_of_mem hmem
    have hfenced := h.resolve_right (Classical.not_not.2 hmem)
    rw [fenced_append, fenced_line] at hfenced
    have hline : '\n' ∉ opening ++ l := fun h => (List.mem_append.1 h).elim hopening hl
    rw [← List.append_assoc, interfaceNames_append_line, interfaceNames_of_not_mem hline, hfirst,
      interfaceNames_of_fenced hfenced.2, List.append_nil]
  · have hline : '\n' ∉ opening ++ s := fun h => (List.mem_append.1 h).elim hopening hmem
    rw [interfaceNames_of_not_mem hline, hfirst]

/-! ## What is declared for a schema -/

/-- May the text stand in front of any fenced line? -/
def KeepsFence (s : List Char) : Prop := ∀ rest, Fenced .start rest → Fenced .start (s ++ rest)

theorem KeepsFence.fenced (h : KeepsFence s) : Fenced .start s := by
  simpa using h [] trivial

theorem keepsFence_join {texts : List String} (h : ∀ s ∈ texts, KeepsFence s.toList) :
    KeepsFence (String.join texts).toList := by
  induction texts with
  | nil => exact fun _ hrest => hrest
  | cons s texts ih =>
    intro rest hrest
    obtain ⟨hs, htexts⟩ := List.forall_mem_cons.1 h
    rw [String.join_cons, String.toList_append, List.append_assoc]
    exact hs _ (ih htexts rest hrest)

/-- A doc comment is on one line. -/
theorem line_not_mem_docText (s : String) : '\n' ∉ (docText s).toList := by
  rw [docText, String.toList_ofList]
  intro hmem
  rcases Text.mem_join hmem with hmem | ⟨w, hw, hmem⟩
  · exact absurd hmem (by decide)
  · exact absurd (Text.isBlank_of_mem_words hw _ hmem) (by decide)

/-- Behind the beginning of a comment, anything can stand up to the end of the line. -/
theorem fenced_comment {front : List Char} (hfront : '{' ∉ front ∧ front.foldl Lead.next .start = .safe)
    (ha : '\n' ∉ a) (hb : Fenced .start b) : Fenced .start (front ++ (a ++ '\n' :: b)) := by
  rw [fenced_append, hfront.2, fenced_safe_append ha, fenced_line]
  exact ⟨fenced_of_not_mem hfront.1 _, hb⟩

theorem keepsFence_fieldText {types : TypeMap} {c : Column} (hname : '{' ∉ c.propertyName.toList)
    (htype : '{' ∉ (types.typeOf c.propertyName c.type).toList) : KeepsFence (fieldText types c).toList := by
  intro rest hrest
  have hmember : '{' ∉ '\t' :: (c.propertyName.toList ++ "?: ".toList ++
      (types.typeOf c.propertyName c.type).toList ++ [';']) := by simp [hname, htype]
  have hfield : Fenced .start _ := hrest.behind_line hmember
  have hbehind : Fenced .start ("\t */".toList ++ '\n' :: _) := hfield.behind_line (by decide)
  have hcomment := @fenced_comment _ _ "\t * ".toList (by decide)
    (line_not_mem_docText (if c.comment.isEmpty then c.propertyName else c.comment)) hbehind
  have hall : Fenced .start ("\t/**".toList ++ '\n' :: _) := hcomment.behind_line (by decide)
  simp only [fieldText, columnComment, String.join_cons, String.join_nil, String.toList_append]
  simpa using hall

theorem keepsFence_parameterComment (description : Option String) :
    KeepsFence (parameterComment description).toList := by
  intro rest hrest
  rw [parameterComment]
  split
  next text htext =>
    split
    next => simpa using hrest
    next =>
      obtain ⟨d, -, rfl⟩ := Option.map_eq_some_iff.1 htext
      have hline : '\n' ∉ (docText d).toList ++ " */".toList := by simp [line_not_mem_docText d]
      have hall := @fenced_comment _ _ "\t\t/** ".toList (by decide) hline hrest
      simp only [String.join_cons, String.join_nil, String.toList_append]
      simpa using hall
  next => simpa using hrest

theorem keepsFence_parameterText {p : Parameter} (hname : '{' ∉ p.name.toList)
    (htype : '{' ∉ (parameterType p).toList) : KeepsFence (parameterText p).toList := by
  intro rest hrest
  have hoptional : '{' ∉ (if !p.required then "?" else "").toList := by split <;> decide
  have hmember : '{' ∉ "\t\t".toList ++ p.name.toList ++ (if !p.required then "?" else "").toList ++
      ": ".toList ++ (parameterType p).toList ++ [';'] := by
    generalize (if !p.required then "?" else "").toList = optional at *
    simp [hname, hoptional, htype]
  have hall := keepsFence_parameterComment p.description _ (hrest.behind_line hmember)
  simp only [parameterText, String.join_cons, String.join_nil, String.toList_append]
  simpa [parameterType] using hall

theorem fenced_parametersText {ps : List Parameter} (h : ∀ p ∈ ps, KeepsFence (parameterText p).toList)
    (ha : '{' ∉ a) (hb : Fenced .start b) : Fenced .safe ((parametersText ps).toList ++ (a ++ '\n' :: b)) := by
  rw [parametersText]
  split
  next => exact (fenced_safe_append (by decide)).2 (hb.behind_line ha)
  next =>
    have hclose : '{' ∉ "\t\x7d".toList ++ a := by simp [ha]
    have hlist := keepsFence_join (List.forall_mem_map.2 h) _ (hb.behind_line hclose)
    have hall : Fenced .safe ("\x7b".toList ++ '\n' :: ((String.join (ps.map parameterText)).toList ++
        ("\t\x7d".toList ++ a ++ '\n' :: b))) :=
      (fenced_safe_append (by decide)).2 (fenced_line.2 hlist)
    simpa [String.join_cons] using hall

theorem keepsFence_signatureText {controller name : String} {e : Entity} {m : Method} (hname : IsName name.toList)
    (h : ∀ p ∈ m.parameters.filter fun p => isLawful p.name.toList, KeepsFence (parameterText p).toList) :
    KeepsFence (signatureText .uniappX controller e m name).toList := by
  intro rest hrest
  have htypes := fenced_parametersText h (a := "): Promise<any>;".toList) (by decide) hrest
  have hlead : ('\t' :: (name.toList ++ ['('])).foldl Lead.next .start = .safe := by
    have hnext : Lead.start.next '\t' = .tab := by decide
    rw [List.foldl_cons, hnext, List.foldl_append]
    rcases foldl_next_tab hname.not_mem_line with hname | hname <;> rw [hname] <;> decide
  have hopen : '{' ∉ '\t' :: (name.toList ++ ['(']) := by simp [hname.not_mem not_isNameChar_open]
  have hmember : Fenced .start ('\t' :: (name.toList ++ ['(']) ++ ("data?: ".toList ++
      ((parametersText (m.parameters.filter fun p => isLawful p.name.toList)).toList ++
        ("): Promise<any>;".toList ++ '\n' :: rest)))) := by
    rw [fenced_append, hlead, fenced_safe_append (by decide)]
    exact ⟨fenced_of_not_mem hopen _, htypes⟩
  have hbehind : Fenced .start ("\t */".toList ++ '\n' :: _) := hmember.behind_line (by decide)
  have hcomment := @fenced_comment _ _ "\t * ".toList (by decide)
    (line_not_mem_docText ((m.summary.filter hasText).getD name)) hbehind
  have hall : Fenced .start ("\t/**".toList ++ '\n' :: _) := hcomment.behind_line (by decide)
  simp only [signatureText, answerType, Target.isCrossPlatform, String.join_cons, String.join_nil,
    String.toList_append]
  simpa using hall

-- What follows uses the lemmas on it only; computing it on a declaration is slow.
attribute [irreducible] Fenced

end ClientBuild.Declaration
