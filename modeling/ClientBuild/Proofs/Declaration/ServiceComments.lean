import ClientBuild.Declaration.ServiceObject
import ClientBuild.Proofs.Declaration.Name
import ClientBuild.Proofs.Schema.Comments
import ClientBuild.Proofs.Text.Search

/-!
# Comments of the service object

Every method of the service object has a comment with the summary that the backend gave it, as it is:
other than in the declarations, an end of a comment in a summary is not escaped.  So such a comment ends
where it should just when its summary holds no end of a comment (`breakOn?_commentText`).  The object is
a row of code and of methods with their comments (`content_build`), and where no summary ends its
comment, nothing but the code is left when the comments are taken out (`comments_close`).
-/

namespace ClientBuild.Declaration.ServiceObject

/-! ## Methods -/

/-- The end of a comment. -/
def commentEnd : List Char := ['*', '/']

/-- What the comment of a method says. -/
def summaryOf (m : Method) : String :=
  (m.summary.filter fun s => !s.isEmpty).getD (ofChars (methodName m))

/-- The comment of a method between its first and its last two characters. -/
def commentText (m : Method) : List Char :=
  "*\n * ".toList ++ ((summaryOf m).toList ++ "\n ".toList)

/-- What is written for a method behind its comment. -/
def codeText (route : String) (m : Method) : List Char :=
  '\n' :: (methodName m ++ ("(data?: any): Promise<any> \x7b\n".toList ++
    ("return request(\x7b\nurl: ".toList ++ '"' :: (route.toList ++ m.path.toList ++
      '"' :: (",\nmethod: ".toList ++ '"' :: ((verbOf m).toList ++
        '"' :: ",\ndata,\n\x7d);\n\x7d,\n".toList))))))

theorem methodText_eq (route : String) (m : Method) :
    (methodText route m).toList =
      ['/', '*'] ++ (commentText m ++ (commentEnd ++ codeText route m)) := by
  have htext : methodText route m =
      "/**\n * " ++ summaryOf m ++ "\n */\n" ++ ofChars (methodName m) ++
        "(data?: any): Promise<any> \x7b\n" ++ "return request(\x7b\nurl: \"" ++ route ++ m.path ++
          "\",\nmethod: \"" ++ verbOf m ++ "\",\ndata,\n\x7d);\n\x7d,\n" := rfl
  have hfront : "/**\n * ".toList = ['/', '*'] ++ "*\n * ".toList := by decide
  have hback : "\n */\n".toList = "\n ".toList ++ ['*', '/', '\n'] := by decide
  have hroute : "return request(\x7b\nurl: \"".toList = "return request(\x7b\nurl: ".toList ++ ['"'] := by
    decide
  have hverb : "\",\nmethod: \"".toList = '"' :: (",\nmethod: ".toList ++ ['"']) := by decide
  have hend : "\",\ndata,\n\x7d);\n\x7d,\n".toList = '"' :: ",\ndata,\n\x7d);\n\x7d,\n".toList := by decide
  rw [htext]
  -- The equations of definitions with long texts in them are slow to be found.
  delta codeText commentText commentEnd
  simp only [String.toList_append, hfront, hback, hroute, hverb, hend, ofChars, String.toList_ofList,
    List.append_assoc, List.cons_append, List.nil_append]

/-- Does the summary of the method hold the end of a comment? -/
def EndsComment (m : Method) : Prop := ∃ s, m.summary = some s ∧ commentEnd <:+: s.toList

theorem slash_not_mem_methodName (m : Method) : '/' ∉ methodName m := by
  rw [methodName_eq]
  intro h
  exact absurd (List.mem_filter.1 h).2 (by decide)

/-- A method without a summary is called by its name, and that holds no slash. -/
theorem commentEnd_infix_summaryOf (m : Method) :
    commentEnd <:+: (summaryOf m).toList ↔ EndsComment m := by
  have hname : ¬ commentEnd <:+: methodName m := fun h =>
    slash_not_mem_methodName m (h.subset (by decide))
  rw [EndsComment, summaryOf]
  cases m.summary with
  | none => simpa [ofChars] using hname
  | some s =>
    by_cases hs : s.isEmpty = true
    · have hnone : ¬ commentEnd <:+: s.toList := by
        rw [String.isEmpty_iff.1 hs]
        decide
      simpa [Option.filter, hs, ofChars, hname] using hnone
    · simp [Option.filter, hs]

/-- Around the summary, a comment has no end of a comment in front of its last two characters. -/
theorem commentEnd_infix_commentText (m : Method) :
    commentEnd <:+: commentText m ++ ['*'] ↔ EndsComment m := by
  have hsplit : commentText m ++ ['*'] =
      ['*'] ++ '\n' :: ([' ', '*'] ++ ' ' :: ((summaryOf m).toList ++ '\n' :: [' ', '*'])) := by
    delta commentText
    rw [List.append_assoc, List.append_assoc]
    rfl
  have hstar : ¬ commentEnd <:+: ['*'] := by decide
  have hblank : ¬ commentEnd <:+: [' ', '*'] := by decide
  rw [hsplit, Text.infix_append_cons_iff (by decide), Text.infix_append_cons_iff (by decide),
    Text.infix_append_cons_iff (by decide), commentEnd_infix_summaryOf]
  simp only [hstar, hblank, false_or, or_false]

/-- **The comment of a method ends where it should just when its summary does not end it.**  In what is
written behind its first two characters, the first end of a comment is then its own. -/
theorem breakOn?_commentText (m : Method) (rest : List Char) :
    Text.breakOn? commentEnd (commentText m ++ (commentEnd ++ rest)) = some (commentText m, rest) ↔
      ¬ EndsComment m := by
  have hlast : commentEnd.dropLast = ['*'] := rfl
  rw [Text.breakOn?_eq_some_iff (by decide), hlast, commentEnd_infix_commentText, List.append_assoc]
  exact and_iff_right rfl

/-! ## The whole object -/

/-- A part of the text of the service object. -/
inductive Fragment where
  | code (s : List Char)
  /-- A method with its comment. -/
  | method (route : String) (m : Method)

namespace Fragment

def text : Fragment → List Char
  | .code s => s
  | .method route m => ['/', '*'] ++ (commentText m ++ (commentEnd ++ codeText route m))

/-- The text of a part without its comment. -/
def bare : Fragment → List Char
  | .code s => s
  | .method route m => codeText route m

end Fragment

/-- The parts of a leaf. -/
def leafFragments (key name : String) (e : Entity) : List Fragment :=
  .code (key ++ ": \x7b\n").toList :: ((declaredMethods e).map (.method e.route) ++
    [.code ("\x7d as " ++ name ++ ",\n").toList])

mutual

/-- The parts of the object for a node of the tree. -/
def fragments (es : List Entity) (above : List Char) (key : String) : RouteNode → List Fragment
  | ⟨route, _, _, _, children⟩ =>
    let name := nodeName above key
    let keyName := ofChars (plainName key.toList)
    if key == "swagger" || !isLawful name then []
    else
      match route with
      | some r => (entityAt? es r).elim [] (leafFragments keyName (ofChars name))
      | none =>
        .code (keyName ++ ": \x7b\n").toList :: (fragmentsOf es name children ++
          [.code ("\x7d as " ++ ofChars (interfaceName key.toList) ++ ",\n").toList])

/-- The parts of the object for the nodes of a level. -/
def fragmentsOf (es : List Entity) (above : List Char) : List (String × RouteNode) → List Fragment
  | [] => []
  | (key, n) :: ns => fragments es above key n ++ fragmentsOf es above ns

end

/-- The parts of the service object. -/
def fragmentsOfTree (tree : RouteTree) (es : List Entity) : List Fragment :=
  .code ['\x7b', '\n'] :: (fragmentsOf es [] tree ++ [.code ['\x7d']])

theorem toList_join_methods (route : String) (ms : List Method) :
    (String.join (ms.map (methodText route))).toList =
      (ms.map (Fragment.method route)).flatMap Fragment.text := by
  induction ms with
  | nil => rfl
  | cons m ms ih =>
    rw [List.map_cons, String.join_cons, String.toList_append, ih, methodText_eq]
    rfl

theorem content_leaf (key name : String) (e : Entity) :
    (leaf key name e).content.toList = (leafFragments key name e).flatMap Fragment.text := by
  have hcontent : (leaf key name e).content = key ++ ": \x7b\n" ++
      String.join ((declaredMethods e).map (methodText e.route)) ++ "\x7d as " ++ name ++ ",\n" := rfl
  rw [hcontent, leafFragments, List.flatMap_cons, List.flatMap_append, ← toList_join_methods]
  simp only [String.toList_append, Fragment.text, List.flatMap_cons, List.flatMap_nil, List.append_assoc,
    List.append_nil]

mutual

theorem content_ofNode (es : List Entity) : ∀ (above : List Char) (key : String) (n : RouteNode),
    (ofNode es above key n).content.toList = (fragments es above key n).flatMap Fragment.text
  | above, key, ⟨route, _, _, _, children⟩ => by
      simp only [ofNode, fragments]
      split
      next => rfl
      next =>
        cases route with
        | none =>
          dsimp only
          simp only [List.flatMap_cons, List.flatMap_append, ← content_ofNodes es (nodeName above key) children,
            String.toList_append, Fragment.text, List.flatMap_nil, List.append_assoc, List.append_nil]
        | some r =>
          dsimp only
          cases entityAt? es r with
          | none => rfl
          | some e => exact content_leaf _ _ e

theorem content_ofNodes (es : List Entity) : ∀ (above : List Char) (ns : List (String × RouteNode)),
    (ofNodes es above ns).content.toList = (fragmentsOf es above ns).flatMap Fragment.text
  | _, [] => rfl
  | above, (key, n) :: ns => by
      simp only [ofNodes, append, fragmentsOf, String.toList_append, List.flatMap_append,
        content_ofNode es above key n, content_ofNodes es above ns]

end

/-- The text of the service object is that of its parts. -/
theorem content_build (tree : RouteTree) (es : List Entity) :
    (build tree es).content.toList = (fragmentsOfTree tree es).flatMap Fragment.text := by
  have hcontent : (build tree es).content = "\x7b\n" ++ (ofNodes es [] tree).content ++ "\x7d" := rfl
  rw [hcontent, fragmentsOfTree, List.flatMap_cons, List.flatMap_append, ← content_ofNodes]
  simp only [String.toList_append, Fragment.text, List.flatMap_cons, List.flatMap_nil, List.append_assoc,
    List.append_nil]
  rfl

/-! ## Taking out the comments

A script has its comments outside strings, as a cache file has them, so `Comments.strip` reads it too. -/

open Comments (Plain stripFrom strip)

theorem stripFrom_comment {m : Method} (h : ¬ EndsComment m) (rest : List Char) :
    stripFrom .code (['/', '*'] ++ (commentText m ++ (commentEnd ++ rest))) = stripFrom .code rest := by
  have hcomment : Style.IsComment (['/', '*'] ++ (commentText m ++ commentEnd)) := by
    refine ⟨commentText m, ?_, rfl⟩
    rwa [← commentEnd_infix_commentText] at h
  have hsplit : ['/', '*'] ++ (commentText m ++ (commentEnd ++ rest)) =
      ['/', '*'] ++ (commentText m ++ commentEnd) ++ rest := by
    simp only [List.append_assoc]
  rw [hsplit, Comments.stripFrom_comment hcomment]

/-- What is written in a string is kept if it neither ends the string nor escapes its end. -/
theorem stripFrom_inString {s : List Char} (rest : List Char) (h : ∀ c ∈ s, c ≠ '"' ∧ c ≠ '\\') :
    stripFrom .code ('"' :: (s ++ '"' :: rest)) = '"' :: (s ++ '"' :: stripFrom .code rest) := by
  have hquoted := Comments.stripFrom_quoted (.inl rfl) (Style.stringRest_of_forall h) rest
  simpa only [List.cons_append, List.append_assoc, List.nil_append] using hquoted

/-- Can the part be read wherever it stands?  Names hold no slashes and quotes then, and what is written
in strings does not end them. -/
def Fragment.IsTame : Fragment → Prop
  | .code s => Plain s
  | .method route m => Plain (methodName m) ∧ (∀ c ∈ route.toList ++ m.path.toList, c ≠ '"' ∧ c ≠ '\\') ∧
      ∀ c ∈ (verbOf m).toList, c ≠ '"' ∧ c ≠ '\\'

theorem codeText_append (route : String) (m : Method) (rest : List Char) :
    codeText route m ++ rest =
      '\n' :: (methodName m ++ ("(data?: any): Promise<any> \x7b\n".toList ++
        ("return request(\x7b\nurl: ".toList ++ '"' :: ((route.toList ++ m.path.toList) ++
          '"' :: (",\nmethod: ".toList ++ '"' :: ((verbOf m).toList ++
            '"' :: (",\ndata,\n\x7d);\n\x7d,\n".toList ++ rest))))))) := by
  delta codeText
  simp only [List.cons_append, List.append_assoc]

theorem stripFrom_codeText {route : String} {m : Method} (h : (Fragment.method route m).IsTame)
    (rest : List Char) :
    stripFrom .code (codeText route m ++ rest) = codeText route m ++ stripFrom .code rest := by
  obtain ⟨hname, hroute, hverb⟩ := h
  rw [codeText_append, codeText_append, Comments.stripFrom_code (by decide), Comments.stripFrom_plain hname,
    Comments.stripFrom_plain (by decide), Comments.stripFrom_plain (by decide), stripFrom_inString _ hroute,
    Comments.stripFrom_plain (by decide), stripFrom_inString _ hverb, Comments.stripFrom_plain (by decide)]

/-- Does the comment of the part, if it has one, end where it should? -/
def Fragment.Closes : Fragment → Prop
  | .code _ => True
  | .method _ m => ¬ EndsComment m

instance (m : Method) : Decidable (EndsComment m) :=
  decidable_of_iff (Text.contains commentEnd (summaryOf m).toList = true)
    (Text.contains_iff.trans (commentEnd_infix_summaryOf m))

instance : (f : Fragment) → Decidable f.IsTame
  | .code s => inferInstanceAs (Decidable (Plain s))
  | .method route m => inferInstanceAs (Decidable (Plain (methodName m) ∧
      (∀ c ∈ route.toList ++ m.path.toList, c ≠ '"' ∧ c ≠ '\\') ∧
        ∀ c ∈ (verbOf m).toList, c ≠ '"' ∧ c ≠ '\\'))

instance : (f : Fragment) → Decidable f.Closes
  | .code _ => isTrue trivial
  | .method _ m => inferInstanceAs (Decidable (¬ EndsComment m))

theorem stripFrom_text {f : Fragment} (htame : f.IsTame) (hcloses : f.Closes) (rest : List Char) :
    stripFrom .code (f.text ++ rest) = f.bare ++ stripFrom .code rest := by
  cases f with
  | code s => exact Comments.stripFrom_plain htame rest
  | method route m =>
    have htext : (Fragment.method route m).text ++ rest =
        ['/', '*'] ++ (commentText m ++ (commentEnd ++ (codeText route m ++ rest))) := by
      simp only [Fragment.text, List.append_assoc]
    rw [htext, stripFrom_comment hcloses, stripFrom_codeText htame, Fragment.bare]

/-- Without the comments that end where they should, a row of parts is their code. -/
theorem strip_fragments {fs : List Fragment} (h : ∀ f ∈ fs, f.IsTame ∧ f.Closes) :
    strip (fs.flatMap Fragment.text) = fs.flatMap Fragment.bare := by
  rw [strip]
  induction fs with
  | nil => rfl
  | cons f fs ih =>
    obtain ⟨⟨htame, hcloses⟩, hfs⟩ := List.forall_mem_cons.1 h
    rw [List.flatMap_cons, List.flatMap_cons, stripFrom_text htame hcloses, ih hfs]

/-- **The comments of the service object close where they should unless a summary closes them.**  The
object is written as code and methods in turn; behind the beginning of a method's comment, the first end
of a comment is the one that is written for it just when its summary holds none, and then a reader of
code comes from the front of the comment to what is written behind it.  Where this is so for every
method, and neither a name nor a string leaves what it is in, taking out the comments leaves the code
that is written around them: no summary becomes code. -/
theorem comments_close (tree : RouteTree) (es : List Entity) :
    let fs := fragmentsOfTree tree es
    let text := (build tree es).content.toList
    text = fs.flatMap Fragment.text ∧
      (∀ front route m rest, fs = front ++ .method route m :: rest →
        let behind := codeText route m ++ rest.flatMap Fragment.text
        let body := commentText m ++ (commentEnd ++ behind)
        text = front.flatMap Fragment.text ++ (['/', '*'] ++ body) ∧
          (Text.breakOn? commentEnd body = some (commentText m, behind) ↔ ¬ EndsComment m) ∧
          (¬ EndsComment m → stripFrom .code (['/', '*'] ++ body) = stripFrom .code behind)) ∧
      ((∀ f ∈ fs, f.IsTame ∧ f.Closes) → strip text = fs.flatMap Fragment.bare) := by
  intro fs text
  have htext : text = fs.flatMap Fragment.text := content_build tree es
  refine ⟨htext, fun front route m rest hfs => ⟨?_, breakOn?_commentText m _, ?_⟩, fun h => ?_⟩
  · rw [htext, hfs, List.flatMap_append, List.flatMap_cons]
    simp only [Fragment.text, List.append_assoc]
  · exact fun hm => stripFrom_comment hm _
  · rw [htext, strip_fragments h]

/-- An entity with a method that has a summary. -/
def clearEntity (summary : String) : Entity where
  route := "/app/user"
  name := "User"
  methods := [{ path := "/clear", method := "post", summary := some summary }]

/-- The tree of that entity. -/
def clearTree : RouteTree := [("user", { route := some "app/user" })]

/-- A summary that begins a comment and has braces and quotes stays in its comment. -/
theorem comments_close_clear :
    strip (build clearTree [clearEntity "Clears /a/* or \x7d \"b\""]).content.toList =
      Text.join ['\n'] (["\x7b", "user: \x7b", "", "clear(data?: any): Promise<any> \x7b",
        "return request(\x7b", "url: \"/app/user/clear\",", "method: \"POST\",", "data,", "\x7d);", "\x7d,",
        "\x7d as User,", "\x7d"].map String.toList) := by
  obtain ⟨_, _, hcode⟩ := comments_close clearTree [clearEntity "Clears /a/* or \x7d \"b\""]
  rw [hcode (by decide +kernel)]
  decide +kernel

/-- The end of a comment in a summary ends its comment, and the rest of the summary is code. -/
theorem summary_becomes_code :
    EndsComment { path := "/clear", method := "post", summary := some "Clears /a/*/b" } ∧
      strip (build clearTree [clearEntity "Clears /a/*/b"]).content.toList =
        Text.join ['\n'] (["\x7b", "user: \x7b", "b", " */", "clear(data?: any): Promise<any> \x7b",
          "return request(\x7b", "url: \"/app/user/clear\",", "method: \"POST\",", "data,", "\x7d);", "\x7d,",
          "\x7d as User,", "\x7d"].map String.toList) := by
  rw [content_build]
  decide +kernel

end ClientBuild.Declaration.ServiceObject
