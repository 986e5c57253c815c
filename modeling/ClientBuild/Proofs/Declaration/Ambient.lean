import ClientBuild.Generation.Run
import ClientBuild.Proofs.Declaration.Header
import ClientBuild.Proofs.Declaration.Marks
import ClientBuild.Proofs.Declaration.ServiceTypes

/-!
# Ambient declarations are laid out

Names without marks do nothing to the layout, whatever a backend writes in comments stays in them, and
dictionary keys stay in their strings.  So every piece of the declarations leads from any depth to the
same depth (`KeepsDepth`), and the whole of them can be laid out and written (`declarations_written`).
-/

namespace ClientBuild.Declaration

/-! ## Comments -/

/-- A text with the ends of comments in it escaped. -/
def escapeEnds (s : List Char) : List Char := Text.replaceAll ['*', '/'] ['*', '\\', '/'] s

theorem escapeEnds_end (s : List Char) :
    escapeEnds ('*' :: '/' :: s) = '*' :: '\\' :: '/' :: escapeEnds s := by
  have hfound : Text.literally ['*', '/'] ['*', '\\', '/'] ('*' :: '/' :: s) =
      some (['*', '\\', '/'], 2) := by
    simp [Text.literally, Text.after?]
  exact Text.replaceMatches_of_some hfound (List.cons_ne_nil _ _)

theorem escapeEnds_cons {c : Char} {s : List Char} (h : ∀ t, c :: s ≠ '*' :: '/' :: t) :
    escapeEnds (c :: s) = c :: escapeEnds s := by
  refine Text.replaceMatches_cons_of_none ?_
  have hnone : Text.after? ['*', '/'] (c :: s) = none :=
    Text.after?_eq_none_iff.2 fun ⟨t, ht⟩ => h t ht.symm
  simp [Text.literally, hnone]

theorem exists_of_escapeEnds_slash {s u : List Char} (h : escapeEnds s = '/' :: u) :
    ∃ t, s = '/' :: t := by
  cases s with
  | nil => cases h
  | cons c s =>
    by_cases hend : ∃ t, c :: s = '*' :: '/' :: t
    · obtain ⟨t, ht⟩ := hend
      rw [ht, escapeEnds_end] at h
      cases h
    · rw [escapeEnds_cons fun t ht => hend ⟨t, ht⟩] at h
      exact ⟨s, congrArg (· :: s) (List.cons.inj h).1⟩

/-- An end taken out shortens the text by two characters, so the induction is on the length. -/
theorem not_end_infix_escapeEnds (s : List Char) : ¬ ['*', '/'] <:+: escapeEnds s := by
  induction hn : s.length using Nat.strongRecOn generalizing s with
  | ind n ih =>
    cases s with
    | nil => simp [escapeEnds, Text.replaceAll, Text.replaceMatches, Text.replaceMatchesFrom]
    | cons c s =>
      rw [List.length_cons] at hn
      by_cases hend : ∃ t, c :: s = '*' :: '/' :: t
      · obtain ⟨t, ht⟩ := hend
        have hs : s = '/' :: t := (List.cons.inj ht).2
        have hlength : t.length < n := by rw [← hn, hs, List.length_cons]; omega
        rw [ht, escapeEnds_end]
        simp [List.infix_cons_iff, ih _ hlength t rfl]
      · have hcons : ∀ t, c :: s ≠ '*' :: '/' :: t := fun t ht => hend ⟨t, ht⟩
        rw [escapeEnds_cons hcons, List.infix_cons_iff]
        rintro (⟨u, hu⟩ | hinside)
        · obtain ⟨rfl, hu⟩ := List.cons.inj hu
          have hslash : escapeEnds s = '/' :: u := (List.cons.inj hu).2.symm
          obtain ⟨t, rfl⟩ := exists_of_escapeEnds_slash hslash
          exact hcons t rfl
        · exact ih s.length (by omega) s rfl hinside

/-- **No comment ends in the text of a comment.** -/
theorem not_end_infix_docText (s : String) : ¬ ['*', '/'] <:+: (docText s).toList := by
  rw [docText, String.toList_ofList]
  intro h
  obtain ⟨w, hw, hinside⟩ := Text.exists_infix_of_infix_join (by decide) (by simp) h
  exact not_end_infix_escapeEnds s.toList (hinside.trans (Text.infix_of_mem_words hw))

/-! ## Pieces that leave the depth as it is -/

variable {a b s : List Char} {d : Nat}

/-- Does the text lead from any depth to the same depth? -/
structure KeepsDepth (a : List Char) : Prop where
  keeps : ∀ d s, Readable .code d s → Readable .code d (a ++ s)

theorem KeepsDepth.append (ha : KeepsDepth a) (hb : KeepsDepth b) : KeepsDepth (a ++ b) := by
  refine ⟨fun d s h => ?_⟩
  rw [List.append_assoc]
  exact ha.keeps d _ (hb.keeps d s h)

theorem keepsDepth_nil : KeepsDepth [] := ⟨fun _ _ h => h⟩

theorem keepsDepth_join {texts : List String} (h : ∀ s ∈ texts, KeepsDepth s.toList) :
    KeepsDepth (String.join texts).toList := by
  induction texts with
  | nil => exact keepsDepth_nil
  | cons s texts ih =>
    obtain ⟨hs, htexts⟩ := List.forall_mem_cons.1 h
    rw [String.join_cons, String.toList_append]
    exact hs.append (ih htexts)

theorem Unmarked.keepsDepth (ha : Unmarked a) : KeepsDepth a := ⟨fun _ _ h => ha.readable.2 h⟩

/-- A block leaves the depth as it is if what is in it does. -/
theorem keepsDepth_block {head body tail : List Char} (hhead : Unmarked head) (hbody : KeepsDepth body)
    (htail : Unmarked tail) : KeepsDepth (head ++ '{' :: (body ++ '}' :: tail)) := by
  refine ⟨fun d s h => ?_⟩
  rw [List.append_assoc, List.cons_append, List.append_assoc, List.cons_append, hhead.readable,
    readable_open]
  exact hbody.keeps (d + 1) _ (readable_close.2 (htail.readable.2 h))

/-- The text of a comment stays in its comment. -/
theorem readable_docText {e : Char} (he : e ≠ '/') (text : String) :
    Readable (.comment false) d ((docText text).toList ++ e :: s) ↔
      Readable (.comment false) d (e :: s) :=
  readable_comment_append he (by simpa using not_end_infix_docText text)

variable {types : TypeMap} {t : Target}

/-! ## Entities -/

/-- Are the strings of the method that stand in code without marks? -/
def UnmarkedMethod (m : Method) : Prop :=
  Unmarked m.displayName.toList ∧
    ∀ p ∈ m.parameters, Unmarked p.name.toList ∧ ∀ type ∈ p.type, Unmarked type.toList

/-- Are the strings of the entity that stand in code without marks? -/
structure UnmarkedEntity (types : TypeMap) (e : Entity) : Prop where
  name : Unmarked e.name.toList
  route : UnmarkedRoute e
  columns : ∀ c ∈ e.mergedColumns, Unmarked c.propertyName.toList ∧
    Unmarked (types.typeOf c.propertyName c.type).toList
  methods : ∀ m ∈ e.methods, UnmarkedMethod m

theorem keepsDepth_fieldText (types : TypeMap) (c : Column) (hname : Unmarked c.propertyName.toList)
    (htype : Unmarked (types.typeOf c.propertyName c.type).toList) :
    KeepsDepth (fieldText types c).toList := by
  refine ⟨fun d s h => ?_⟩
  simp only [fieldText, columnComment, String.join_cons, String.join_nil, String.toList_append]
  simp (disch := decide) [readable_code, readable_begin, readable_comment, readable_end,
    readable_docText, hname.readable, htype.readable, h]

theorem keepsDepth_index :
    KeepsDepth "\t/**\n\t * Any other key\n\t */\n\t[key: string]: any;\n".toList := by
  refine ⟨fun d s h => ?_⟩
  simpa (disch := decide) [readable_code, readable_begin, readable_comment, readable_end] using h

theorem keepsDepth_entityText {e : Entity} (ht : t.isCrossPlatform = false) (h : UnmarkedEntity types e) :
    KeepsDepth (entityText t types e ++ "\n").toList := by
  have hfields : KeepsDepth (String.join (e.mergedColumns.map (fieldText types))).toList := by
    refine keepsDepth_join (List.forall_mem_map.2 fun c hc => ?_)
    exact keepsDepth_fieldText types c (h.columns c hc).1 (h.columns c hc).2
  have hhead : Unmarked ("interface ".toList ++ (entityName e).toList ++ [' ']) :=
    ((show Unmarked "interface ".toList by decide).append h.name.entityName).append (by decide)
  have hbody : KeepsDepth ('\n' :: (String.join (e.mergedColumns.map (fieldText types))).toList ++
      "\t/**\n\t * Any other key\n\t */\n\t[key: string]: any;\n".toList) :=
    ((show Unmarked ['\n'] by decide).keepsDepth.append hfields).append keepsDepth_index
  have htext : (entityText t types e ++ "\n").toList =
      ("interface ".toList ++ (entityName e).toList ++ [' ']) ++ '{' ::
        (('\n' :: (String.join (e.mergedColumns.map (fieldText types))).toList ++
          "\t/**\n\t * Any other key\n\t */\n\t[key: string]: any;\n".toList) ++ '}' :: ['\n', '\n']) := by
    simp [entityText, String.join_cons, String.join_nil, exportWord, ht]
  rw [htext]
  exact keepsDepth_block hhead hbody (by decide)

/-! ## Controllers -/

theorem keepsDepth_inlineComment (text : String) :
    KeepsDepth ("\t\t/** ".toList ++ (docText text).toList ++ " */\n".toList) := by
  refine ⟨fun d s h => ?_⟩
  simpa (disch := decide) [readable_code, readable_begin, readable_comment, readable_end,
    readable_docText] using h

theorem keepsDepth_parameterComment (description : Option String) :
    KeepsDepth (parameterComment description).toList := by
  rw [parameterComment]
  split
  next text htext =>
    obtain ⟨given, _, rfl⟩ := Option.map_eq_some_iff.1 htext
    split
    next => exact keepsDepth_nil
    next =>
      simpa [String.join_cons, String.join_nil] using keepsDepth_inlineComment given
  next => exact keepsDepth_nil

theorem keepsDepth_parameterText (p : Parameter) (hname : Unmarked p.name.toList)
    (htype : ∀ type ∈ p.type, Unmarked type.toList) : KeepsDepth (parameterText p).toList := by
  have hgiven : Unmarked ((p.type.filter fun t => !t.isEmpty).getD "string").toList := by
    cases hfilter : p.type.filter fun t => !t.isEmpty with
    | none => exact (by decide : Unmarked "string".toList)
    | some type => exact htype type (Option.filter_eq_some_iff.1 hfilter).1
  have hmark : Unmarked (if !p.required then "?" else "").toList := by
    split <;> decide
  simp only [parameterText, String.join_cons, String.join_nil, String.toList_append]
  refine (keepsDepth_parameterComment p.description).append (Unmarked.keepsDepth ?_)
  refine (by decide : Unmarked _).append (hname.append (hmark.append ?_))
  exact (by decide : Unmarked _).append (hgiven.append (by decide))

theorem keepsDepth_parametersText {ps : List Parameter}
    (h : ∀ p ∈ ps, Unmarked p.name.toList ∧ ∀ type ∈ p.type, Unmarked type.toList) :
    KeepsDepth (parametersText ps).toList := by
  rw [parametersText]
  split
  next => exact (by decide : Unmarked "any".toList).keepsDepth
  next =>
    have hlist : KeepsDepth (String.join (ps.map parameterText)).toList :=
      keepsDepth_join (List.forall_mem_map.2 fun p hp => keepsDepth_parameterText p (h p hp).1 (h p hp).2)
    have hbody : KeepsDepth ('\n' :: (String.join (ps.map parameterText)).toList ++ ['\t']) :=
      ((by decide : Unmarked ['\n']).keepsDepth.append hlist).append (by decide : Unmarked ['\t']).keepsDepth
    have htext : (String.join ["\x7b\n", String.join (ps.map parameterText), "\t\x7d"]).toList =
        [] ++ '{' :: (('\n' :: (String.join (ps.map parameterText)).toList ++ ['\t']) ++ '}' :: []) := by
      simp [String.join_cons, String.join_nil]
    rw [htext]
    exact keepsDepth_block (by decide) hbody (by decide)

theorem keepsDepth_summary (text : String) :
    KeepsDepth ("\t/**\n\t * ".toList ++ (docText text).toList ++ "\n\t */\n\t".toList) := by
  refine ⟨fun d s h => ?_⟩
  simpa (disch := decide) [readable_code, readable_begin, readable_comment, readable_end,
    readable_docText] using h

theorem unmarked_answerType {name : String} {e : Entity} {m : Method} (hname : Unmarked name.toList)
    (hentity : Unmarked e.name.toList) : Unmarked (answerType t name e m).toList := by
  have htype := hentity.entityType
  rw [answerType]
  split
  next => decide
  next =>
    split
    next =>
      rw [String.toList_append]
      exact hname.append (by decide)
    next =>
      rw [String.toList_append]
      exact htype.append (by decide)
    next => exact htype
    next => decide

theorem keepsDepth_signatureText {name : String} {e : Entity} {m : Method}
    (hname : Unmarked name.toList) (hentity : Unmarked e.name.toList) (hm : UnmarkedMethod m) :
    KeepsDepth (signatureText t name e m (ofChars (methodName m))).toList := by
  have hmethod : Unmarked (methodName m) := hm.1.methodName
  have hparameters : KeepsDepth
      (parametersText (m.parameters.filter fun p => isLawful p.name.toList)).toList :=
    keepsDepth_parametersText fun p hp => hm.2 p (List.mem_filter.1 hp).1
  have hanswer := @unmarked_answerType t name e m hname hentity
  have hback : Unmarked ("): Promise<".toList ++ (answerType t name e m).toList ++ ">;\n".toList) :=
    ((by decide : Unmarked "): Promise<".toList).append hanswer).append (by decide)
  have hfront : Unmarked (methodName m ++ "(data?: ".toList) := hmethod.append (by decide)
  have hwhole := ((keepsDepth_summary ((m.summary.filter hasText).getD
    (ofChars (methodName m)))).append hfront.keepsDepth).append (hparameters.append hback.keepsDepth)
  simpa [signatureText, String.join_cons, String.join_nil, ofChars] using hwhole

/-- Names with a type each, on one line. -/
theorem keepsDepth_permissions {names : List String} (h : ∀ name ∈ names, Unmarked name.toList)
    {type : String} (htype : Unmarked type.toList) :
    KeepsDepth (String.join (names.map fun name => String.join [name, type])).toList := by
  refine keepsDepth_join (List.forall_mem_map.2 fun name hname => ?_)
  have hentry : Unmarked (name.toList ++ type.toList) := (h name hname).append htype
  simpa [String.join_cons, String.join_nil] using hentry.keepsDepth

theorem keepsDepth_permissionsText {names : List String} (h : ∀ name ∈ names, Unmarked name.toList) :
    KeepsDepth (permissionsText names).toList := by
  have hfirst : KeepsDepth "\t/**\n\t * Permission identifiers\n\t */\n".toList := by
    refine ⟨fun d s h => ?_⟩
    simpa (disch := decide) [readable_code, readable_begin, readable_comment, readable_end] using h
  have hsecond : KeepsDepth "\t/**\n\t * Permission state\n\t */\n".toList := by
    refine ⟨fun d s h => ?_⟩
    simpa (disch := decide) [readable_code, readable_begin, readable_comment, readable_end] using h
  have hlist : ∀ type : String, Unmarked type.toList → KeepsDepth (' ' ::
      (String.join (names.map fun name => String.join [name, type])).toList ++ [' ']) :=
    fun type htype => ((by decide : Unmarked [' ']).keepsDepth.append
      (keepsDepth_permissions h htype)).append (by decide : Unmarked [' ']).keepsDepth
  have hnames := keepsDepth_block (show Unmarked "\tpermission: ".toList by decide)
    (hlist ": string; " (by decide)) (show Unmarked ";\n".toList by decide)
  have hstates := keepsDepth_block (show Unmarked "\t_permission: ".toList by decide)
    (hlist ": boolean; " (by decide)) (show Unmarked ";\n\trequest: Request;\n".toList by decide)
  have htext : (permissionsText names).toList =
      "\t/**\n\t * Permission identifiers\n\t */\n".toList ++ ("\tpermission: ".toList ++ '{' ::
        ((' ' :: (String.join (names.map fun name => String.join [name, ": string; "])).toList ++
          [' ']) ++ '}' :: ";\n".toList)) ++
      ("\t/**\n\t * Permission state\n\t */\n".toList ++ ("\t_permission: ".toList ++ '{' ::
        ((' ' :: (String.join (names.map fun name => String.join [name, ": boolean; "])).toList ++
          [' ']) ++ '}' :: ";\n\trequest: Request;\n".toList))) := by
    simp only [permissionsText, String.join_cons, String.join_nil, String.toList_append]
    simp
  rw [htext]
  exact (hfirst.append hnames).append (hsecond.append hstates)

theorem keepsDepth_controllerText {name : String} {e : Entity} (ht : t.isCrossPlatform = false)
    (hname : Unmarked name.toList) (hentity : Unmarked e.name.toList)
    (hmethods : ∀ m ∈ e.methods, UnmarkedMethod m) :
    KeepsDepth (controllerText t name e ++ "\n").toList := by
  have hmethod : ∀ x ∈ namedMethods e, ∃ m ∈ e.methods, x = (ofChars (methodName m), m) := by
    intro x hx
    obtain ⟨m, hm, rfl⟩ := List.mem_map.1 hx
    exact ⟨m, (List.mem_filter.1 hm).1, rfl⟩
  have hsignatures : KeepsDepth (String.join ((namedMethods e).map fun x =>
      signatureText t name e x.2 x.1)).toList := by
    refine keepsDepth_join (List.forall_mem_map.2 fun x hx => ?_)
    obtain ⟨m, hm, rfl⟩ := hmethod x hx
    exact keepsDepth_signatureText hname hentity (hmethods m hm)
  have hpermissions : KeepsDepth
      (permissionsText (Text.distinct ((namedMethods e).map (·.1)))).toList := by
    refine keepsDepth_permissionsText fun permission hpermission => ?_
    obtain ⟨x, hx, rfl⟩ := List.mem_map.1 (Text.mem_distinct.1 hpermission)
    obtain ⟨m, hm, rfl⟩ := hmethod x hx
    simpa [ofChars] using (hmethods m hm).1.methodName
  have hhead : Unmarked ("interface ".toList ++ name.toList ++ [' ']) :=
    ((by decide : Unmarked "interface ".toList).append hname).append (by decide)
  have hbody := (by decide : Unmarked ['\n']).keepsDepth.append (hsignatures.append hpermissions)
  have hwhole := keepsDepth_block hhead hbody (show Unmarked "\n\n".toList by decide)
  simpa [controllerText, String.join_cons, String.join_nil, exportWord, ht] using hwhole

/-! ## The declarations that every text has -/

theorem keepsDepth_quote (key : String) : KeepsDepth (Json.quote key) :=
  ⟨fun _ _ h => (readable_quote key).2 h⟩

theorem keepsDepth_join_bar : ∀ keys : List String,
    KeepsDepth (Text.join " | ".toList (keys.map Json.quote))
  | [] => keepsDepth_nil
  | [key] => keepsDepth_quote key
  | key :: key' :: keys =>
    ((keepsDepth_quote key).append (by decide : Unmarked " | ".toList).keepsDepth).append
      (keepsDepth_join_bar (key' :: keys))

theorem keepsDepth_dictText (dictKeys : Option (List String)) :
    KeepsDepth (dictText t dictKeys).toList := by
  cases dictKeys with
  | none => exact keepsDepth_nil
  | some keys =>
    have hword : Unmarked (exportWord t).toList := by
      rw [exportWord]
      split <;> decide
    have hunion : KeepsDepth (dictKeyUnion keys).toList := by
      rw [dictKeyUnion]
      split
      next => exact (by decide : Unmarked "string".toList).keepsDepth
      next =>
        rw [String.toList_ofList]
        exact keepsDepth_join_bar keys
    have hfront := (hword.append (by decide : Unmarked "type DictKey = ".toList)).keepsDepth
    have hback := (by decide : Unmarked ";\n\n".toList).keepsDepth
    simpa [dictText, String.join_cons, String.join_nil] using (hfront.append hunion).append hback

theorem keepsDepth_helperText (ht : t.isCrossPlatform = false) (dictKeys : Option (List String)) :
    KeepsDepth (helperText t dictKeys).toList := by
  have hjson := (by decide : Unmarked "\ntype json = any;\n\n".toList).keepsDepth
  have hcounts := keepsDepth_block (show Unmarked "interface PagePagination ".toList by decide)
    (by decide : Unmarked
      "\n\tsize: number;\n\tpage: number;\n\ttotal: number;\n\t[key: string]: any;\n".toList).keepsDepth
    (show Unmarked "\n\n".toList by decide)
  have hwhole := (hjson.append (@keepsDepth_dictText t dictKeys)).append hcounts
  simpa [helperText, indexText, String.join_cons, String.join_nil, exportWord, ht] using hwhole

theorem keepsDepth_genericText (ht : t.isCrossPlatform = false) :
    KeepsDepth (genericText t).toList := by
  have hwhole := keepsDepth_block (show Unmarked "interface PageResponse<T> ".toList by decide)
    (by decide : Unmarked
      "\n\tpagination: PagePagination;\n\tlist: T[];\n\t[key: string]: any;\n".toList).keepsDepth
    (show Unmarked "\n\n".toList by decide)
  simpa [genericText, indexText, String.join_cons, String.join_nil, exportWord, ht] using hwhole

theorem keepsDepth_pageText {p : PageType} (ht : t.isCrossPlatform = false)
    (hname : Unmarked p.name.toList) (hentity : Unmarked p.entity.toList) :
    KeepsDepth (pageText t p).toList := by
  have hhead : Unmarked ("interface ".toList ++ p.name.toList ++ [' ']) :=
    ((by decide : Unmarked "interface ".toList).append hname).append (by decide)
  have hbody : Unmarked ("\n\tpagination: PagePagination;\n\tlist: ".toList ++ p.entity.toList ++
      "[];\n".toList) :=
    ((by decide : Unmarked "\n\tpagination: PagePagination;\n\tlist: ".toList).append hentity).append
      (by decide)
  have hwhole := keepsDepth_block hhead hbody.keepsDepth (show Unmarked "\n\n".toList by decide)
  simpa [pageText, String.join_cons, String.join_nil, exportWord, ht] using hwhole

set_option maxRecDepth 2000 in
theorem requestText_eq (ht : t.isCrossPlatform = false) :
    requestText t = "interface RequestOptions " ++ ("\x7b" ++ ("\n\turl: string;\n\tmethod?: " ++
      String.ofList (Text.join " | ".toList (["OPTIONS", "GET", "HEAD", "POST", "PUT", "DELETE",
        "TRACE", "CONNECT"].map Json.quote)) ++
      ";\n\tdata?: any;\n\tparams?: any;\n\theaders?: any;\n\ttimeout?: number;\n" ++
      "\t[key: string]: any;\n" ++
      ("\x7d" ++ "\n\ntype Request = (options: RequestOptions) => Promise<any>;\n\n"))) := by
  simp [requestText, String.join_cons, String.join_nil, exportWord, ht, Text.join, Json.quote,
    Json.escape, Json.escapeChar]

theorem keepsDepth_requestText (ht : t.isCrossPlatform = false) :
    KeepsDepth (requestText t).toList := by
  have hbody : KeepsDepth ("\n\turl: string;\n\tmethod?: ".toList ++
      Text.join " | ".toList (["OPTIONS", "GET", "HEAD", "POST", "PUT", "DELETE", "TRACE",
        "CONNECT"].map Json.quote) ++
      ";\n\tdata?: any;\n\tparams?: any;\n\theaders?: any;\n\ttimeout?: number;\n".toList ++
      "\t[key: string]: any;\n".toList) :=
    (((by decide : Unmarked "\n\turl: string;\n\tmethod?: ".toList).keepsDepth.append
      (keepsDepth_join_bar _)).append (by decide : Unmarked _).keepsDepth).append
        (by decide : Unmarked _).keepsDepth
  rw [requestText_eq ht]
  simp only [String.toList_append, String.toList_ofList]
  exact keepsDepth_block (by decide) hbody (by decide)

/-! ## The service type -/

mutual

theorem Part.Unmarked.keepsDepth : ∀ {p : Part}, p.Unmarked → KeepsDepth p.chain.toList
  | .leaf key c, ⟨hkey, hname⟩ => by
      have hline : Declaration.Unmarked (key.toList ++ ": ".toList ++ c.name.toList ++ ";\n".toList) :=
        ((hkey.append (by decide)).append hname).append (by decide)
      simpa [Part.chain] using hline.keepsDepth
  | .group key type parts, ⟨hkey, hparts⟩ => by
      have hhead : Declaration.Unmarked (key.toList ++ ": ".toList) := hkey.append (by decide)
      have hbody : KeepsDepth (['\n'] ++ (chains parts).toList) :=
        (by decide : Declaration.Unmarked ['\n']).keepsDepth.append (UnmarkedParts.keepsDepth hparts)
      have hwhole := keepsDepth_block hhead hbody
        (show Declaration.Unmarked ";\n".toList by decide)
      simpa [Part.chain] using hwhole

theorem UnmarkedParts.keepsDepth : ∀ {ps : List Part}, UnmarkedParts ps →
    KeepsDepth (chains ps).toList
  | [], _ => keepsDepth_nil
  | p :: ps, ⟨hp, hps⟩ => by
      rw [chains, String.toList_append]
      exact hp.keepsDepth.append (UnmarkedParts.keepsDepth hps)

end

theorem keepsDepth_serviceText (ht : t.isCrossPlatform = false) {ps : List Part}
    (h : UnmarkedParts ps) : KeepsDepth (serviceText t (chains ps)).toList := by
  have hbody : KeepsDepth ("\n\trequest: Request;\n".toList ++ ((chains ps).toList ++ ['\n'])) :=
    (by decide : Unmarked "\n\trequest: Request;\n".toList).keepsDepth.append
      (h.keepsDepth.append (by decide : Unmarked ['\n']).keepsDepth)
  have hwhole := keepsDepth_block (show Unmarked "type Service = ".toList by decide) hbody
    (show Unmarked ['\n'] by decide)
  simpa [serviceText, String.join_cons, String.join_nil, exportWord, ht] using hwhole

/-! ## The whole of the declarations -/

variable {es : List Entity} {dictKeys : Option (List String)}

theorem keepsDepth_leadTexts (ht : t.isCrossPlatform = false) (h : ∀ e ∈ es, UnmarkedEntity types e)
    {tree : RouteTree} (htree : UnmarkedParts (parts es [] tree)) :
    ∀ text ∈ leadTexts t types es tree dictKeys, KeepsDepth text.toList := by
  intro text htext
  have hcontrollers := (walkNodes_eq es [] tree).2
  have hnames : ∀ c ∈ (walkNodes es [] tree).controllers,
      Unmarked c.name.toList ∧ UnmarkedEntity types c.entity := by
    intro c hc
    rw [hcontrollers] at hc
    exact ⟨htree.controllersOf c hc, h c.entity (mem_of_mem_controllersOf _ c hc)⟩
  simp only [leadTexts, entityPieces, controllerPieces, List.mem_append, List.mem_cons,
    List.not_mem_nil, or_false] at htext
  rcases htext with ((htext | rfl | rfl) | htext) | htext
  · obtain ⟨e, he, rfl⟩ := List.mem_map.1 htext
    exact keepsDepth_entityText ht (h e (hasLawfulName_of_mem_declaredEntities he).2)
  · exact keepsDepth_helperText ht dictKeys
  · exact keepsDepth_genericText ht
  · obtain ⟨p, hp, rfl⟩ := List.mem_map.1 htext
    obtain ⟨c, hc, rfl⟩ := exists_of_mem_pagesOf hp
    obtain ⟨hname, hentity⟩ := hnames c hc
    refine keepsDepth_pageText ht ?_ hentity.name.entityType
    rw [String.toList_append]
    exact hname.append (by decide)
  · obtain ⟨c, hc, rfl⟩ := List.mem_map.1 htext
    obtain ⟨hname, hentity⟩ := hnames c hc
    exact keepsDepth_controllerText ht hname hentity.name hentity.methods

/-- **Ambient declarations are always laid out and written.**  Let the strings of the entities that
stand in code have no marks, and let comments, summaries, descriptions and the keys of the dictionary be
any strings.  Then there are declarations, they can be laid out, and a run that has entities writes
them. -/
theorem declarations_written (ht : t.isCrossPlatform = false) (namespaceId : String)
    (dictKeys : Option (List String)) (h : ∀ e ∈ es, UnmarkedEntity types e) :
    ∃ out formatted,
      synthesize t types es (RouteTree.build namespaceId es) dictKeys = .ok out ∧
      layout out.text.toList = .ok formatted ∧
      ∀ (g : Generator) (answer : String → Option Json) (store : Store), es ≠ [] →
        g.writeDeclarations ⟨answer, layout⟩ store es out.text =
          store.writeIfChanged g.declarationPath (String.ofList formatted) := by
  have htree := unmarkedParts_build (fun e he => (h e he).route) namespaceId
  obtain ⟨out, hout, _, htext⟩ := @synthesize_ambient types es (RouteTree.build namespaceId es)
    dictKeys t ht
  have hlead : KeepsDepth ((leadTexts t types es (RouteTree.build namespaceId es) dictKeys).map
      String.toList).flatten := by
    have hjoin := keepsDepth_join (@keepsDepth_leadTexts types t es dictKeys ht h _ htree)
    simpa [String.toList_join, List.flatMap] using hjoin
  have hservice := keepsDepth_serviceText ht htree
  rw [(walkNodes_eq es [] _).1] at htext
  have hbody := (by decide : Unmarked ['\n']).keepsDepth.append (hlead.append
    ((by decide : Unmarked ['\n']).keepsDepth.append (((keepsDepth_requestText ht).append
      hservice).append (by decide : Unmarked ['\n']).keepsDepth)))
  have hwhole := keepsDepth_block (show Unmarked "declare namespace Eps ".toList by decide) hbody
    (show Unmarked "\n\n".toList by decide)
  have hreadable : Readable .code 0 (out.text.toList ++ ['\n']) := by
    rw [htext]
    simpa using hwhole.keeps 0 [] readable_nil
  obtain ⟨formatted, hformatted⟩ := exists_layout hreadable
  refine ⟨out, formatted, hout, hformatted, fun g answer store hne => ?_⟩
  rw [Generator.writeDeclarations, if_neg (by simpa using hne)]
  dsimp only
  rw [hformatted]

/-- A user with the end of a comment, a brace and a quote in the comment on its column. -/
def commentedEntity : Entity where
  route := "/admin/user"
  name := "User"
  columns := [{ propertyName := "id", type := "int", source := "a.id", comment := "*/ \x7b\" /*" }]
  methods := [{ path := "/add", method := "post" }]

theorem declarations_written_commented :
    (∀ e ∈ [commentedEntity], UnmarkedEntity (.ofRules []) e) ∧
      ∃ out formatted,
        synthesize .admin (.ofRules []) [commentedEntity] (RouteTree.build "admin" [commentedEntity])
          (some ["a\"\x7d"]) = .ok out ∧
        layout out.text.toList = .ok formatted ∧
        ∀ (g : Generator) (answer : String → Option Json) (store : Store), [commentedEntity] ≠ [] →
          g.writeDeclarations ⟨answer, layout⟩ store [commentedEntity] out.text =
            store.writeIfChanged g.declarationPath (String.ofList formatted) := by
  have hentity : ∀ e ∈ [commentedEntity], UnmarkedEntity (.ofRules []) e := by
    refine List.forall_mem_singleton.2 ⟨by decide, ?_, by decide, ?_⟩
    · exact fun c hc hslash => by
        have hall : commentedEntity.route.toList.all (fun c => c == '/' || !isMark c) = true := by
          decide
        simpa [hslash] using List.all_eq_true.1 hall c hc
    · exact List.forall_mem_singleton.2 ⟨by decide, fun p hp => nomatch hp⟩
  exact ⟨hentity, declarations_written rfl "admin" (some ["a\"\x7d"]) hentity⟩

end ClientBuild.Declaration
