import ClientBuild.Proofs.Schema.Cache

/-!
# Comments between tokens

Comments may be put between the tokens of a text (`Commented`).  What is left of the text with comments then differs
from the text in line breaks only, one for each line comment that came with its own; so it is cut into the same tokens
(`Commented.exists_tokens?`), and a cache file reads the same with comments and without (`Cache.comments_removed`).
-/

namespace ClientBuild.Comments

open Json (token? tokens? isSpace goesOn StopsAt)
open Style (IsComment)

/-- The second text is the first one, cut into tokens, with comments in front of, between and behind the tokens. -/
inductive Commented : List Char → List Char → Prop where
  | nil : Commented [] []
  | blank {c : Char} {s t : List Char} : isSpace c = true → Commented s t → Commented (c :: s) (c :: t)
  | token {u : Json.Token} {x s t : List Char} : x ≠ [] → token? (x ++ s) = some (u, x.length) → Commented s t →
      Commented (x ++ s) (x ++ t)
  | block {b s t : List Char} : IsComment b → Commented s t → Commented s (b ++ t)
  /-- A line comment with a line break of its own. -/
  | line {b s t : List Char} : '\n' ∉ b → Commented s t → Commented s ('/' :: '/' :: (b ++ '\n' :: t))
  /-- A line comment at the end of a line of the text, or of the text. -/
  | lineEnd {b s t : List Char} : '\n' ∉ b → (∀ c ∈ t.head?, c = '\n') → Commented s t →
      Commented s ('/' :: '/' :: (b ++ t))

variable {s t r : List Char}

/-- Comments may be put into every text of tokens. -/
theorem commented_self {us : List Json.Token} (h : tokens? s = some us) : Commented s s := by
  have hrow := Json.tokenized_of_tokens? h
  clear h
  induction hrow with
  | nil => exact .nil
  | blank hc _ ih => exact .blank hc ih
  | token hne _ hu _ ih => exact .token hne hu ih

/-- A text that begins like another one, or with a line break, goes on with no digit if the other one does not. -/
theorem stopsAt_of_head (hs : StopsAt isDigit s) (hr : ∀ c ∈ r.head?, c = '\n' ∨ s.head? = some c) :
    StopsAt isDigit r := by
  rintro c r rfl
  rcases hr c rfl with rfl | hhead
  · rfl
  · obtain ⟨s, rfl⟩ := List.head?_eq_some_iff.1 hhead
    exact hs c s rfl

/-- A token is read the same in front of a text that begins like what followed it, or with a line break. -/
theorem token?_before {u : Json.Token} {x : List Char} {us : List Json.Token}
    (h : token? (x ++ s) = some (u, x.length)) (hr : ∀ c ∈ r.head?, c = '\n' ∨ s.head? = some c)
    (htokens : tokens? r = some us) : token? (x ++ r) = some (u, x.length) := by
  obtain ⟨y, s', hsplit, hlength, htoken⟩ := Json.token?_takes h
  obtain ⟨rfl, rfl⟩ := List.append_inj hsplit hlength
  rcases htoken.reads with hread | ⟨hdigit, hread⟩
  · exact hread r
  · exact hread r ((stopsAt_of_head hdigit hr).goesOn_of_tokens? htokens)

/-- **A text and what is left of it with comments are cut into the same tokens.**  In front of a token the latter
begins like the text or with a line break, so that a number is not read on. -/
theorem Commented.exists_tokens? (h : Commented s t) :
    (∃ us, tokens? s = some us ∧ tokens? (strip t) = some us) ∧
      ∀ c ∈ (strip t).head?, c = '\n' ∨ s.head? = some c := by
  induction h with
  | nil => exact ⟨⟨[], rfl, rfl⟩, fun c hc => by cases hc⟩
  | @blank c s t hc _ ih =>
    obtain ⟨⟨us, hs, ht⟩, -⟩ := ih
    have hstrip : strip (c :: t) = c :: strip t := stripFrom_space hc t
    rw [hstrip, Json.tokens?_space hc, Json.tokens?_space hc]
    exact ⟨⟨us, hs, ht⟩, fun d hd => .inr hd⟩
  | @token u x s t hne hu _ ih =>
    obtain ⟨⟨us, hs, ht⟩, hhead⟩ := ih
    obtain ⟨y, s', hsplit, hlength, htoken⟩ := Json.token?_takes hu
    obtain ⟨rfl, rfl⟩ := List.append_inj hsplit hlength
    have hstrip : strip (x ++ t) = x ++ strip t := stripFrom_lexeme htoken.lexeme t
    rw [hstrip, Json.tokens?_append hne hu, Json.tokens?_append hne (token?_before hu hhead ht), hs, ht]
    obtain ⟨c, x, rfl⟩ := List.exists_cons_of_ne_nil hne
    exact ⟨⟨u :: us, rfl, rfl⟩, fun d hd => .inr hd⟩
  | @block b s t hb _ ih =>
    have hstrip : strip (b ++ t) = strip t := stripFrom_comment hb t
    rw [hstrip]
    exact ih
  | @line b s t hb _ ih =>
    obtain ⟨⟨us, hs, ht⟩, -⟩ := ih
    have hbreak : ∀ c ∈ ('\n' :: t).head?, c = '\n' := by
      intro c hc
      exact (Option.some.inj hc).symm
    have hstrip : strip ('/' :: '/' :: (b ++ '\n' :: t)) = '\n' :: strip t :=
      (stripFrom_line hb hbreak).trans (stripFrom_space rfl t)
    rw [hstrip, Json.tokens?_space rfl]
    exact ⟨⟨us, hs, ht⟩, fun c hc => .inl (Option.some.inj hc).symm⟩
  | @lineEnd b s t hb hbreak _ ih =>
    have hstrip : strip ('/' :: '/' :: (b ++ t)) = strip t := stripFrom_line hb hbreak
    rw [hstrip]
    exact ih

/-- With comments between its tokens, a text is read as the same value. -/
theorem Commented.parse?_strip (h : Commented s t) : Json.Raw.parse? (strip t) = Json.Raw.parse? s := by
  obtain ⟨⟨us, hs, ht⟩, -⟩ := h.exists_tokens?
  rw [Json.Raw.parse?, Json.Raw.parse?, hs, ht]

/-- A text that comments may be put into holds none. -/
theorem Commented.strip_eq (h : Commented s t) : strip s = s := by
  obtain ⟨⟨us, hs, -⟩, -⟩ := h.exists_tokens?
  exact strip_of_tokens? hs

end ClientBuild.Comments

namespace ClientBuild.Cache

open Comments

/-- A cache text holds the same entities with comments between its tokens. -/
theorem parse_commented {text commented : String} (h : Commented text.toList commented.toList) :
    parse commented = parse text := by
  simp only [parse, Entity.parseList?, Json.readAs?, h.parse?_strip, h.strip_eq]

/-- **Removing comments removes exactly the comments.**  Of a row of segments the plain ones and the strings are left;
a text of tokens is left as it is, and comments may be put into it; a cache file reads the same with comments between
its tokens; and of what is left, nothing is removed by a second pass. -/
theorem comments_removed :
    (∀ gs, IsRow gs → strip (sourceOf gs) = keptOf gs) ∧
      (∀ text us, Json.tokens? text = some us → strip text = text ∧ Commented text text) ∧
      (∀ (store store' : Store) (path text commented : String), store.read? path = some text →
        store'.read? path = some commented → Commented text.toList commented.toList →
        read store' path = read store path) ∧
      ∀ text, strip (strip text) = strip text := by
  refine ⟨fun gs h => h.strip_sourceOf, fun text us h => ⟨strip_of_tokens? h, commented_self h⟩, ?_, strip_strip⟩
  intro store store' path text commented htext hcommented h
  rw [read, read, htext, hcommented]
  exact parse_commented h

/-- A string keeps what would open a comment, a comment keeps its quotes to itself, and comments stand in front of,
between and behind the tokens of a cache text that holds an entity. -/
theorem comments_removed_slashes :
    strip "[/*'*/\"//\\\"\" //\"\n,1]".toList = "[\"//\\\"\" \n,1]".toList ∧
      strip "[\"/*\" , 1]".toList = "[\"/*\" , 1]".toList ∧
      read ⟨[(["eps.json"], "/*'*/[\x7b\"prefix\"://\"\n\"//\"\x7d]//")], [], none⟩ "eps.json" =
        read ⟨[(["eps.json"], "[\x7b\"prefix\":\"//\"\x7d]")], [], none⟩ "eps.json" ∧
      strip (strip "'//".toList) = strip "'//".toList := by
  obtain ⟨hrow, htokens, hread, hagain⟩ := comments_removed
  have hplain : Plain ['['] ∧ Plain [' '] ∧ Plain "\n,1]".toList := by decide
  have hblock : Style.IsComment "/*'*/".toList := ⟨['\''], by decide, rfl⟩
  have hstring : Style.StringRest '"' "//\\\"\"".toList :=
    .char (by decide) (by decide) (.char (by decide) (by decide) (.escaped '"' .close))
  have hquote : '\n' ∉ ['"'] := by decide
  have hbreak : ∀ c ∈ (sourceOf [.plain "\n,1]".toList]).head?, c = '\n' := fun c hc => (Option.some.inj hc).symm
  refine ⟨?_, ?_, ?_, hagain _⟩
  · have hrest : IsRow [.plain [' '], .line ['"'], .plain "\n,1]".toList] :=
      .cons hplain.2.1 trivial (.cons hquote hbreak (.cons hplain.2.2 trivial .nil))
    have hfront : IsRow (.plain ['['] :: .block "/*'*/".toList :: .string '"' "//\\\"\"".toList :: _) :=
      .cons hplain.1 trivial (.cons hblock trivial (.cons ⟨.inl rfl, hstring⟩ trivial hrest))
    exact hrow _ hfront
  · exact (htokens _ _ rfl).1
  · have hend : Commented "\x7d]".toList "\x7d]//".toList :=
      .token (x := ['\x7d']) (by decide) rfl
        (.token (x := [']']) (by decide) rfl (.lineEnd List.not_mem_nil (by simp) .nil))
    have hvalue : Commented ":\"//\"\x7d]".toList "://\"\n\"//\"\x7d]//".toList :=
      .token (x := [':']) (by decide) rfl (.line hquote
        (.token (x := "\"//\"".toList) (by decide) rfl hend))
    have hstart : Commented "[\x7b\"prefix\":\"//\"\x7d]".toList
        "[\x7b\"prefix\"://\"\n\"//\"\x7d]//".toList :=
      .token (x := ['[']) (by decide) rfl (.token (x := ['\x7b']) (by decide) rfl
        (.token (x := "\"prefix\"".toList) (by decide) rfl hvalue))
    exact hread _ _ _ _ _ rfl rfl (.block hblock hstart)

end ClientBuild.Cache
