import ClientBuild.Proofs.Markup.Names
import ClientBuild.Proofs.Text.Apart

/-!
# Strings in expressions

An expression is cut into pieces: signs, identifiers, and strings, each string with the sign in front of it
(`Piece`).  The patterns for elements and branches look for a string behind a sign and read it up to the next quote.
They do not tell the quotes that open a string from those that close it, so a text that ends in a sign leads them out of
step.  Where no name does, they find the strings behind their signs and no other texts (`findAll_pieces`).
-/

namespace ClientBuild.Markup

open Text (Pattern isBlank)

/-! ## Pieces -/

/-- The signs that a string stands behind. -/
def leads : List Char := ['[', '{', ',', '?', ':']

/-- The signs of an expression, besides the bracket that ends it. -/
def signs : List Char := '}' :: leads

/-- The characters that stand in strings only, or around them. -/
def outsiders : List Char := [']', '(', '=', '\'', '"', '\x60']

/-- A part of an expression: a sign or an identifier, or a string and the sign in front of it. -/
inductive Shape where
  | token (x : List Char)
  | string (lead quote : Char) (name : List Char)
deriving DecidableEq

/-- What a part begins with. -/
def Shape.head? : Shape → Option Char
  | .token x => x.head?
  | .string c _ _ => some c

/-- The name of a string. -/
def Shape.name? : Shape → Option (List Char)
  | .token _ => none
  | .string _ _ n => some n

/-- What parts begin with, in front of the bracket that ends them. -/
def opening (ss : List Shape) : Char := (ss.head?.bind Shape.head?).getD ']'

/-- A part of an expression with the blanks in it, in front of the string, and behind it. -/
structure Piece where
  shape : Shape
  inner : List Char
  outer : List Char

/-- What a piece has in front of its string. -/
def Piece.front : Piece → List Char
  | ⟨.token x, b, _⟩ => x ++ b
  | ⟨.string c _ _, b, _⟩ => c :: b

/-- The string of a piece with its name replaced. -/
def Piece.quoted (f : List Char → List Char) : Piece → List Char
  | ⟨.token _, _, _⟩ => []
  | ⟨.string _ q n, _, _⟩ => q :: (f n ++ [q])

/-- The text of a piece with its name replaced. -/
def Piece.text (f : List Char → List Char) (p : Piece) : List Char := p.front ++ (p.quoted f ++ p.outer)

/-- The text of pieces with their names replaced. -/
def textOf (f : List Char → List Char) (ps : List Piece) : List Char := ps.flatMap (Piece.text f)

/-- The names in pieces. -/
def namesOf (ps : List Piece) : List (List Char) := ps.filterMap fun p => p.shape.name?

/-- An identifier, or any other part of an expression without blanks, signs and strings. -/
def IsIdentifier (w : List Char) : Prop := w ≠ [] ∧ ∀ c ∈ w, isBlank c = false ∧ c ∉ signs ++ outsiders

/-- A name as a string of an expression has it: it is not empty and has no blanks, quotes and escapes, it neither begins
nor ends like something around a string, and it calls nothing with an object. -/
structure IsBoundName (n : List Char) : Prop where
  nonempty : n ≠ []
  plain : ∀ c ∈ n, isBlank c = false ∧ isQuote c = false ∧ c ≠ '\\'
  start : n.head? ≠ some ':'
  stop : ∀ c ∈ n.getLast?, c ∉ signs
  call : ¬ "(\x7b".toList <:+: n

instance (w : List Char) : Decidable (IsIdentifier w) :=
  @instDecidableAnd _ _ inferInstance (List.decidableBAll _ w)

instance (n : List Char) : Decidable (IsBoundName n) :=
  letI : Decidable (∀ c ∈ n, isBlank c = false ∧ isQuote c = false ∧ c ≠ '\\') := List.decidableBAll _ n
  letI : Decidable (∀ c ∈ n.getLast?, c ∉ signs) := Option.decidableForallMem n.getLast?
  letI : Decidable ("(\x7b".toList <:+: n) := decidable_of_iff _ Text.contains_iff
  decidable_of_iff (n ≠ [] ∧ (∀ c ∈ n, isBlank c = false ∧ isQuote c = false ∧ c ≠ '\\') ∧ n.head? ≠ some ':' ∧
      (∀ c ∈ n.getLast?, c ∉ signs) ∧ ¬ "(\x7b".toList <:+: n)
    ⟨fun ⟨h1, h2, h3, h4, h5⟩ => ⟨h1, h2, h3, h4, h5⟩, fun h => ⟨h.1, h.2, h.3, h.4, h.5⟩⟩

/-- Are the parts what they should be? -/
def Shape.IsSound : Shape → Prop
  | .token x => (∃ c ∈ signs, x = [c]) ∨ IsIdentifier x
  | .string c q n => c ∈ leads ∧ isStringQuote q = true ∧ IsBoundName n

instance : (s : Shape) → Decidable s.IsSound
  | .token _ => @instDecidableOr _ _ (List.decidableBEx _ signs) inferInstance
  | .string _ _ _ => inferInstanceAs (Decidable (_ ∧ _))

/-- Is a piece made of a sound part and blanks? -/
structure Piece.IsSound (p : Piece) : Prop where
  shape : p.shape.IsSound
  inner : ∀ c ∈ p.inner, isBlank c = true
  outer : ∀ c ∈ p.outer, isBlank c = true

instance (p : Piece) : Decidable p.IsSound :=
  letI : Decidable (∀ c ∈ p.inner, isBlank c = true) := List.decidableBAll _ p.inner
  letI : Decidable (∀ c ∈ p.outer, isBlank c = true) := List.decidableBAll _ p.outer
  decidable_of_iff (p.shape.IsSound ∧ (∀ c ∈ p.inner, isBlank c = true) ∧ ∀ c ∈ p.outer, isBlank c = true)
    ⟨fun ⟨h1, h2, h3⟩ => ⟨h1, h2, h3⟩, fun h => ⟨h.1, h.2, h.3⟩⟩

/-! ## Strings behind blanks -/

section Scan

variable {lead : Char → Bool} {body? : Pattern (List Char)} {x r : List Char}

theorem isBlank_quote {q : Char} (hq : isStringQuote q = true) : isBlank q = false := by
  rw [isStringQuote, Bool.or_eq_true, beq_iff_eq, beq_iff_eq] at hq
  rcases hq with rfl | rfl <;> rfl

theorem stringBehindBlanks?_blank {c : Char} (hc : isBlank c = true) (s : List Char) :
    stringBehindBlanks? body? (c :: s) = (stringBehindBlanks? body? s).map fun (v, n) => (v, n + 1) := by
  simp only [stringBehindBlanks?, List.takeWhile_cons, List.dropWhile_cons, hc, if_true, List.length_cons]
  split
  next q t hdrop =>
    split
    next =>
      rw [Option.map_map]
      exact Option.map_congr fun p _ => Prod.ext rfl (by simp only [Function.comp]; omega)
    next => rfl
  next => rfl

theorem stringBehindBlanks?_char {c : Char} (hblank : isBlank c = false) (hquote : isStringQuote c = false)
    (s : List Char) : stringBehindBlanks? body? (c :: s) = none := by
  simp only [stringBehindBlanks?, List.dropWhile_cons, hblank, hquote, Bool.false_eq_true, if_false]

theorem stringBehindBlanks?_quote {q : Char} (hq : isStringQuote q = true) (s : List Char) :
    stringBehindBlanks? body? (q :: s) = (body? s).map fun (v, n) => (v, n + 1) := by
  simp only [stringBehindBlanks?, List.takeWhile_cons, List.dropWhile_cons, isBlank_quote hq, hq, Bool.false_eq_true,
    if_false, if_true, List.length_nil]
  exact Option.map_congr fun p _ => Prod.ext rfl (by simp only; omega)

/-- Does a text begin with neither a blank nor a quote? -/
def Begins (r : List Char) : Prop := ∀ c ∈ r.head?, isBlank c = false ∧ isStringQuote c = false

/-- Has a text no quotes of strings? -/
def NoQuotes (x : List Char) : Prop := ∀ c ∈ x, isStringQuote c = false

instance (x : List Char) : Decidable (NoQuotes x) := List.decidableBAll _ x

theorem NoQuotes.not_mem {q : Char} (h : NoQuotes x) (hq : isStringQuote q = true) : q ∉ x := fun hmem => by
  have hnot := h q hmem
  rw [hq] at hnot
  cases hnot

/-- Texts in front of the first quote are the same. -/
theorem NoQuotes.append_inj {n v s t : List Char} {q c : Char} (hn : NoQuotes n) (hv : NoQuotes v)
    (hq : isStringQuote q = true) (hc : isStringQuote c = true) (h : n ++ q :: s = v ++ c :: t) : n = v ∧ s = t := by
  obtain ⟨w, rfl, hw⟩ := Text.exists_of_append_eq_right h (hn.not_mem hc)
  cases w with
  | nil => exact ⟨(List.append_nil n).symm, (List.cons.inj hw).2⟩
  | cons d w =>
    rw [← (List.cons.inj hw).1] at hv
    exact absurd (List.mem_append_right n List.mem_cons_self) (hv.not_mem hq)

theorem isStringQuote_of_isQuote {c : Char} (h : isQuote c = false) : isStringQuote c = false := by
  rw [isQuote, Bool.or_eq_false_iff] at h
  exact h.1

/-- No string is found in a text without quotes. -/
theorem stringBehindBlanks?_of_begins (hr : Begins r) (hx : NoQuotes x) :
    stringBehindBlanks? body? (x ++ r) = none := by
  induction x with
  | nil =>
    cases r with
    | nil => rfl
    | cons c r =>
      obtain ⟨hblank, hquote⟩ := hr c rfl
      exact stringBehindBlanks?_char hblank hquote r
  | cons c x ih =>
    obtain ⟨hc, hx⟩ := List.forall_mem_cons.1 hx
    cases hblank : isBlank c with
    | false => exact stringBehindBlanks?_char hblank hc _
    | true => rw [List.cons_append, stringBehindBlanks?_blank hblank, ih hx, Option.map_none]

theorem stringBehind?_of_begins (hr : Begins r) (hx : NoQuotes x) (c : Char) :
    stringBehind? lead body? (c :: (x ++ r)) = none := by
  simp only [stringBehind?, stringBehindBlanks?_of_begins hr hx, Option.map_none, ite_self]

theorem stringBehind?_of_not_lead {c : Char} (hc : lead c = false) (s : List Char) :
    stringBehind? lead body? (c :: s) = none := by
  simp only [stringBehind?, hc, Bool.false_eq_true, if_false]

/-- A scan passes over a text without quotes. -/
theorem findAll_of_noQuotes (hr : Begins r) (hx : NoQuotes x) :
    Text.findAll (stringBehind? lead body?) (x ++ r) = Text.findAll (stringBehind? lead body?) r := by
  refine Text.findAll_append_of_none r fun y c z hsplit => stringBehind?_of_begins hr (fun d hd => ?_) c
  exact hx d (hsplit ▸ List.mem_append_right y (List.mem_cons_of_mem c hd))

theorem findAll_eq_nil_of_noQuotes (hx : NoQuotes x) : Text.findAll (stringBehind? lead body?) x = [] := by
  have hscan : Text.findAll (stringBehind? lead body?) (x ++ []) = Text.findAll (stringBehind? lead body?) [] :=
    findAll_of_noQuotes (fun _ h => by cases h) hx
  rwa [List.append_nil] at hscan

/-- A scan passes over a string that does not end like what is in front of one. -/
theorem findAll_string_of_none {q : Char} {n : List Char} (hlead : lead q = false)
    (hn : ∀ c ∈ n, isBlank c = false ∧ isStringQuote c = false) (hlast : ∀ c ∈ n.getLast?, lead c = false) :
    Text.findAll (stringBehind? lead body?) (q :: (n ++ q :: r)) = Text.findAll (stringBehind? lead body?) r := by
  have hsplit : q :: (n ++ q :: r) = (q :: (n ++ [q])) ++ r := by simp
  rw [hsplit]
  refine Text.findAll_append_of_none r fun y c z h => ?_
  cases y with
  | nil =>
    obtain ⟨rfl, -⟩ := List.cons.inj h
    exact stringBehind?_of_not_lead hlead _
  | cons d y =>
    have h : n ++ [q] = y ++ c :: z := (List.cons.inj h).2
    rcases List.eq_nil_or_concat z with rfl | ⟨z, e, rfl⟩
    · obtain ⟨-, hc⟩ := List.append_inj' h rfl
      cases hc
      exact stringBehind?_of_not_lead hlead _
    · rw [List.concat_eq_append, ← List.cons_append, ← List.append_assoc] at h
      obtain ⟨rfl, -⟩ := List.append_inj' h rfl
      -- Behind a character of the name stands another one, or it is the last.
      cases z with
      | nil => exact stringBehind?_of_not_lead (hlast c (by simp)) _
      | cons e z =>
        obtain ⟨hblank, hquote⟩ := hn e (by simp)
        simp only [stringBehind?, List.concat_eq_append, List.cons_append, stringBehindBlanks?_char hblank hquote,
          Option.map_none, ite_self]

theorem stringBehindBlanks?_append {b : List Char} (hb : ∀ c ∈ b, isBlank c = true) (s : List Char) :
    stringBehindBlanks? body? (b ++ s) = (stringBehindBlanks? body? s).map fun (v, n) => (v, n + b.length) := by
  induction b with
  | nil => simp
  | cons c b ih =>
    obtain ⟨hc, hb⟩ := List.forall_mem_cons.1 hb
    rw [List.cons_append, stringBehindBlanks?_blank hc, ih hb, Option.map_map]
    exact Option.map_congr fun p _ => Prod.ext rfl (by simp only [Function.comp, List.length_cons]; omega)

/-- A string is read behind a character in front of it. -/
theorem stringBehind?_string {c q : Char} {b : List Char} (hc : lead c = true) (hb : ∀ d ∈ b, isBlank d = true)
    (hq : isStringQuote q = true) (s : List Char) :
    stringBehind? lead body? (c :: (b ++ q :: s)) = (body? s).map fun (v, n) => (v, n + b.length + 2) := by
  simp only [stringBehind?, hc, if_true, stringBehindBlanks?_append hb, stringBehindBlanks?_quote hq, Option.map_map]
  exact Option.map_congr fun p _ => Prod.ext rfl (by simp only [Function.comp]; omega)

theorem untilQuote?_append {n : List Char} {q : Char} (hn : NoQuotes n) (hq : isStringQuote q = true) (s : List Char) :
    untilQuote? (n ++ q :: s) = some (n, n.length + 1) := by
  induction n with
  | nil => simp [untilQuote?, hq]
  | cons c n ih =>
    obtain ⟨hc, hn⟩ := List.forall_mem_cons.1 hn
    simp [untilQuote?, hc, ih hn]

/-- A scan passes over a string with the blanks in front of it if nothing in front of it is looked for. -/
theorem findAll_string_of_not_lead {q : Char} {n : List Char} (hq : lead q = false)
    (hn : ∀ c ∈ n, isBlank c = false ∧ isStringQuote c = false) (hlast : ∀ c ∈ n.getLast?, lead c = false)
    {b : List Char} (hb : b.any lead = false) :
    Text.findAll (stringBehind? lead body?) (b ++ q :: (n ++ q :: r)) = Text.findAll (stringBehind? lead body?) r := by
  rw [List.any_eq_false] at hb
  rw [Text.findAll_append_of_none _ fun x d y hsplit => ?_, findAll_string_of_none hq hn hlast]
  exact stringBehind?_of_not_lead
    (Bool.eq_false_iff.2 (hb d (hsplit ▸ List.mem_append_right x List.mem_cons_self))) _

/-- A scan finds a string if something in front of it is looked for, and goes on behind it. -/
theorem findAll_string_of_lead {q c : Char} {n b : List Char} (hq : isStringQuote q = true) (hn : NoQuotes n)
    (hb : ∀ d ∈ b, isBlank d = true) (h : (c :: b).any lead = true) :
    Text.findAll (stringBehind? lead untilQuote?) (c :: (b ++ q :: (n ++ q :: r))) =
      n :: Text.findAll (stringBehind? lead untilQuote?) r := by
  have hfound {c : Char} {b : List Char} (hb : ∀ d ∈ b, isBlank d = true) (hc : lead c = true) :
      Text.findAll (stringBehind? lead untilQuote?) (c :: (b ++ q :: (n ++ q :: r))) =
        n :: Text.findAll (stringBehind? lead untilQuote?) r := by
    have hstring : stringBehind? lead untilQuote? (c :: (b ++ q :: (n ++ q :: r))) =
        some (n, n.length + 1 + b.length + 2) := by
      rw [stringBehind?_string hc hb hq, untilQuote?_append hn hq, Option.map_some]
    have hsplit : c :: (b ++ q :: (n ++ q :: r)) = (c :: (b ++ q :: (n ++ [q]))) ++ r := by simp
    have hsize : n.length + 1 + b.length + 2 = (c :: (b ++ q :: (n ++ [q]))).length := by
      simp only [List.length_cons, List.length_append, List.length_nil]
      omega
    rw [Text.findAll_of_some hstring (List.cons_ne_nil _ _), hsize, hsplit, List.drop_left]
  induction b generalizing c with
  | nil => exact hfound hb (by simpa using h)
  | cons d b ih =>
    cases hc : lead c with
    | false =>
      rw [List.any_cons, hc, Bool.false_or] at h
      rw [Text.findAll_cons_of_none (stringBehind?_of_not_lead hc _), List.cons_append,
        ih (fun e he => hb e (List.mem_cons_of_mem d he)) h]
    | true => exact hfound hb hc

theorem findAll_string {q : Char} {n : List Char} (hq : isStringQuote q = true) (hlead : lead q = false)
    (hn : ∀ c ∈ n, isBlank c = false ∧ isStringQuote c = false) (hlast : ∀ c ∈ n.getLast?, lead c = false)
    {b : List Char} (hb : ∀ d ∈ b, isBlank d = true) (c : Char) :
    Text.findAll (stringBehind? lead untilQuote?) (c :: (b ++ q :: (n ++ q :: r))) =
      (if lead c || b.any lead then [n] else []) ++ Text.findAll (stringBehind? lead untilQuote?) r := by
  rw [← List.any_cons]
  split
  next h => exact findAll_string_of_lead hq (fun d hd => (hn d hd).2) hb h
  next h => exact findAll_string_of_not_lead (b := c :: b) hlead hn hlast (Bool.eq_false_iff.2 h)

end Scan

/-! ## Pieces behind each other -/

variable {f : List Char → List Char} {ps : List Piece} {x b b' n : List Char} {c q : Char}

theorem textOf_cons (p : Piece) (ps : List Piece) : textOf f (p :: ps) = p.text f ++ textOf f ps := List.flatMap_cons

theorem textOf_string (z : List Char) : textOf f (⟨.string c q n, b, b'⟩ :: ps) ++ z =
    c :: (b ++ q :: (f n ++ q :: (b' ++ (textOf f ps ++ z)))) := by
  simp [textOf_cons, Piece.text, Piece.front, Piece.quoted]

theorem apart_of_mem_signs (hc : c ∈ signs) : isBlank c = false ∧ isStringQuote c = false ∧ c ∉ outsiders := by
  have hall : ∀ c ∈ signs, isBlank c = false ∧ isStringQuote c = false ∧ c ∉ outsiders := by decide
  exact hall c hc

theorem isStringQuote_of_not_mem (hc : c ∉ outsiders) : isStringQuote c = false := by
  rw [isStringQuote, Bool.or_eq_false_iff, beq_eq_false_iff_ne, beq_eq_false_iff_ne]
  exact ⟨fun heq => hc (heq ▸ by decide), fun heq => hc (heq ▸ by decide)⟩

/-- The characters of a token. -/
theorem Shape.IsSound.of_mem (h : Shape.IsSound (.token x)) (hc : c ∈ x) : isBlank c = false ∧ c ∉ outsiders := by
  rcases h with ⟨d, hd, rfl⟩ | ⟨-, hx⟩
  · obtain ⟨hblank, -, hout⟩ := apart_of_mem_signs hd
    rw [List.mem_singleton.1 hc]
    exact ⟨hblank, hout⟩
  · exact ⟨(hx c hc).1, fun hmem => (hx c hc).2 (List.mem_append_right _ hmem)⟩

theorem Shape.IsSound.ne_nil (h : Shape.IsSound (.token x)) : x ≠ [] := by
  rcases h with ⟨d, -, rfl⟩ | ⟨hne, -⟩
  · exact List.cons_ne_nil d []
  · exact hne

theorem noQuotes_blanks (hb : ∀ c ∈ b, isBlank c = true) : NoQuotes b := fun c hc => by
  cases hquote : isStringQuote c with
  | false => rfl
  | true =>
    have hblank := hb c hc
    rw [isBlank_quote hquote] at hblank
    cases hblank

theorem NoQuotes.append {y : List Char} (hx : NoQuotes x) (hy : NoQuotes y) : NoQuotes (x ++ y) := fun c hc =>
  (List.mem_append.1 hc).elim (hx c) (hy c)

theorem not_mem_blanks (hb : ∀ c ∈ b, isBlank c = true) (hc : c ∈ outsiders) : c ∉ b := fun hmem => by
  have houtsiders : ∀ c ∈ outsiders, isBlank c = false := by decide
  have hblank := hb c hmem
  rw [houtsiders c hc] at hblank
  cases hblank

/-- What stands in front of a string has no outsiders. -/
theorem Piece.IsSound.not_mem_front {p : Piece} (h : p.IsSound) (hc : c ∈ outsiders) : c ∉ p.front := by
  obtain ⟨shape, b, b'⟩ := p
  cases shape with
  | token x => exact List.not_mem_append (fun hmem => (h.shape.of_mem hmem).2 hc) (not_mem_blanks h.inner hc)
  | string d q n =>
    refine List.not_mem_cons_of_ne_of_not_mem ?_ (not_mem_blanks h.inner hc)
    rintro rfl
    exact (apart_of_mem_signs (List.mem_cons_of_mem _ h.shape.1)).2.2 hc

/-- A token with its blanks has no quotes. -/
theorem Piece.IsSound.noQuotes (h : Piece.IsSound ⟨.token x, b, b'⟩) : NoQuotes (Piece.text f ⟨.token x, b, b'⟩) := by
  refine NoQuotes.append (NoQuotes.append ?_ (noQuotes_blanks h.inner)) (noQuotes_blanks h.outer)
  exact fun _ hc => isStringQuote_of_not_mem (h.shape.of_mem hc).2

theorem IsBoundName.noQuotes (h : IsBoundName n) : ∀ c ∈ n, isBlank c = false ∧ isStringQuote c = false := by
  intro c hc
  obtain ⟨hblank, hquote, -⟩ := h.plain c hc
  exact ⟨hblank, isStringQuote_of_isQuote hquote⟩

theorem Piece.IsSound.exists_front {p : Piece} (h : p.IsSound) :
    ∃ d r, p.shape.head? = some d ∧ p.front = d :: r ∧ isBlank d = false ∧ isStringQuote d = false := by
  obtain ⟨shape, b, b'⟩ := p
  cases shape with
  | token x =>
    have hshape : Shape.IsSound (.token x) := h.shape
    obtain ⟨c, x, rfl⟩ := List.exists_cons_of_ne_nil hshape.ne_nil
    obtain ⟨hblank, hout⟩ := hshape.of_mem List.mem_cons_self
    exact ⟨c, x ++ b, rfl, rfl, hblank, isStringQuote_of_not_mem hout⟩
  | string c q n =>
    obtain ⟨hblank, hquote, -⟩ := apart_of_mem_signs (List.mem_cons_of_mem _ h.shape.1)
    exact ⟨c, b, rfl, rfl, hblank, hquote⟩

/-- The text of pieces begins with what they begin with. -/
theorem exists_textOf_eq (hps : ∀ p ∈ ps, p.IsSound) :
    ∃ d r, opening (ps.map Piece.shape) = d ∧ textOf f ps ++ [']'] = d :: r ∧ isBlank d = false ∧
      isStringQuote d = false := by
  cases ps with
  | nil => exact ⟨']', [], rfl, rfl, by decide, by decide⟩
  | cons p ps =>
    obtain ⟨d, r, hhead, hfront, hblank, hquote⟩ := (hps p List.mem_cons_self).exists_front
    refine ⟨d, r ++ (p.quoted f ++ p.outer) ++ (textOf f ps ++ [']']), ?_, ?_, hblank, hquote⟩
    · rw [List.map_cons, opening, List.head?_cons, Option.bind_some, hhead, Option.getD_some]
    · rw [textOf_cons, Piece.text, hfront]
      simp

theorem begins_textOf (hps : ∀ p ∈ ps, p.IsSound) : Begins (textOf f ps ++ [']']) := by
  obtain ⟨d, r, -, htext, hblank, hquote⟩ := exists_textOf_eq (f := f) hps
  rw [htext]
  intro c hc
  cases hc
  exact ⟨hblank, hquote⟩

/-! ## Elements and branches -/

theorem findAll_token {lead : Char → Bool} {body? : Pattern (List Char)}
    (hps : ∀ p ∈ (⟨.token x, b, b'⟩ :: ps : List Piece), p.IsSound) :
    Text.findAll (stringBehind? lead body?) (textOf f (⟨.token x, b, b'⟩ :: ps) ++ [']']) =
      Text.findAll (stringBehind? lead body?) (textOf f ps ++ [']']) := by
  obtain ⟨hp, hrest⟩ := List.forall_mem_cons.1 hps
  rw [textOf_cons, List.append_assoc, findAll_of_noQuotes (begins_textOf hrest) hp.noQuotes]

/-- The string of a piece, if something in front of it is looked for. -/
def Piece.found (lead : Char → Bool) : Piece → List (List Char)
  | ⟨.token _, _, _⟩ => []
  | ⟨.string c _ n, b, _⟩ => if lead c || b.any lead then [n] else []

/-- A scan finds the strings that have something in front of them that is looked for. -/
theorem findAll_pieces {lead : Char → Bool} (hlead : ∀ c, lead c = true → isBlank c = true ∨ c ∈ signs)
    (hps : ∀ p ∈ ps, p.IsSound) :
    Text.findAll (stringBehind? lead untilQuote?) (textOf id ps ++ [']']) = ps.flatMap (Piece.found lead) := by
  have hnot {c : Char} (hblank : isBlank c = false) (hsign : c ∉ signs) : lead c = false := by
    rw [Bool.eq_false_iff]
    intro hc
    rcases hlead c hc with hyes | hyes
    · rw [hblank] at hyes
      cases hyes
    · exact hsign hyes
  have hquote {q : Char} (hq : isStringQuote q = true) : lead q = false := by
    refine hnot (isBlank_quote hq) fun hsign => ?_
    rw [(apart_of_mem_signs hsign).2.1] at hq
    cases hq
  induction ps with
  | nil =>
    exact findAll_eq_nil_of_noQuotes (by decide)
  | cons p ps ih =>
    obtain ⟨hp, hrest⟩ := List.forall_mem_cons.1 hps
    obtain ⟨shape, b, b'⟩ := p
    rw [List.flatMap_cons]
    cases shape with
    | token x => exact (findAll_token hps).trans (ih hrest)
    | string c q n =>
      obtain ⟨-, hq, hn⟩ := hp.shape
      have hlast : ∀ c ∈ n.getLast?, lead c = false := fun c hc =>
        hnot (hn.plain c (List.mem_of_getLast? hc)).1 (hn.stop c hc)
      rw [textOf_string, id, findAll_string hq (hquote hq) hn.noQuotes hlast hp.inner,
        findAll_of_noQuotes (begins_textOf hrest) (noQuotes_blanks hp.outer), ih hrest, Piece.found]

end ClientBuild.Markup
