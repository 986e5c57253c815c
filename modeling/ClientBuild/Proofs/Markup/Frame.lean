import ClientBuild.Proofs.Markup.Dark
import ClientBuild.Proofs.Text.Edits

/-!
# What rewriting a page leaves

The texts between the tags of a page lose empty attributes and take the import, and nothing else
(`page_kept`).  A tag is rewritten piece by piece between its double quotes (`pieces_transformNode`): an
attribute is kept in which no name stands that is replaced, and so is each class of a plain class attribute.
But names are replaced wherever they stand in a tag, so other attributes and classes are not safe from them
(`other_texts_renamed`).
-/

namespace ClientBuild.Markup

open Text (Inserted replaceEach)

/-! ## The replacements of a tag -/

/-- The utilities of a tag with their safe names. -/
def renamings (g : List Char) : List (List Char × List Char) :=
  ((utilitiesOf g).filter fun n => Style.SafeName.encode n ≠ n).map fun n => (n, Style.SafeName.encode n)

/-- The classes for dark mode, which are taken out of a tag. -/
def removals (g : List Char) : List (List Char × List Char) := (darkNames g).map fun n => (n, [])

/-- The object and the array that take entries. -/
def bindings (entries : List Char) (contents : List (List Char)) : List (List Char × List Char) :=
  ((contents.find? fun c => Text.startsWith ['{'] c && Text.endsWith ['}'] c).toList.map
    fun o => (o, '{' :: entries ++ ',' :: o.drop 1)) ++
  (contents.find? fun c => Text.startsWith ['['] c && Text.endsWith [']'] c).toList.map
    fun a => (a, '[' :: '{' :: entries ++ '}' :: ',' :: a.drop 1)

/-- The object and the array of a tag that take its classes for dark mode. -/
def darkBindings (g : List Char) : List (List Char × List Char) :=
  if (darkNames g).isEmpty then [] else bindings (darkEntries (darkNames g)) (classContents (unbound g))

theorem renamed_eq (g : List Char) : renamed g = replaceEach (renamings g) g := by
  have hfold : ∀ (ns : List (List Char)) (s : List Char), ns.foldl replaceName s =
      replaceEach ((ns.filter fun n => Style.SafeName.encode n ≠ n).map
        fun n => (n, Style.SafeName.encode n)) s := by
    intro ns
    induction ns with
    | nil => exact fun _ => rfl
    | cons n ns ih =>
      intro s
      rw [List.foldl_cons, ih, replaceName]
      by_cases hsafe : Style.SafeName.encode n = n
      · simp only [hsafe, if_true]
        rw [List.filter_cons_of_neg (by simpa using hsafe)]
      · simp only [if_neg hsafe]
        rw [List.filter_cons_of_pos (by simpa using hsafe)]
        rfl
  exact hfold _ g

/-- The replacements of names in a tag. -/
def nameReplacements (g : List Char) : List (List Char × List Char) := renamings g ++ removals g

/-- All replacements in a tag, in order. -/
def replacements (g : List Char) : List (List Char × List Char) := nameReplacements g ++ darkBindings g

/-- The pieces of a tag between its double quotes: what stands in front of a value, and the value, in turn. -/
def pieces (g : List Char) : List (List Char) := Text.splitOn (· == '"') g

/-- An attribute with its value. -/
def quoted (k v : List Char) : List Char := k ++ '"' :: (v ++ ['"'])

/-- The values of attributes that are taken out. -/
def emptyValues : List (List Char) := ["\x7b\x7d".toList, [], [' ']]

/-- An attribute that is taken out has one of these values, and the name of a class attribute in front of it. -/
theorem exists_eq_quoted {p : List Char} (hp : p ∈ emptyAttributes) :
    ∃ u m, p = quoted u m ∧ '"' ∉ u ∧ "class=".toList <:+ u ∧ m ∈ emptyValues := by
  have hlist : emptyAttributes = [quoted " :class=".toList "\x7b\x7d".toList,
      quoted ":class=".toList "\x7b\x7d".toList, quoted "class=".toList [], quoted "class=".toList [' ']] := by
    decide
  revert p
  rw [hlist]
  simp only [List.forall_mem_cons, List.not_mem_nil, false_imp_iff, implies_true, and_true]
  exact ⟨⟨_, _, rfl, by decide, by decide, by decide⟩, ⟨_, _, rfl, by decide, by decide, by decide⟩,
    ⟨_, _, rfl, by decide, by decide, by decide⟩, ⟨_, _, rfl, by decide, by decide, by decide⟩⟩

/-- What a tag keeps of one that is rewritten, if no text with a double quote is replaced in it. -/
structure Keeps (g g' : List Char) : Prop where
  /-- An attribute is kept in which nothing stands that is replaced. -/
  attributes : (∀ p ∈ replacements g, '"' ∉ p.1) → ∀ k v, [k, v] <:+: (pieces g).dropLast →
    '=' ∈ k → v ∉ emptyValues → ¬ "class=".toList <:+ v →
    (∀ p ∈ replacements g, ¬ p.1 <:+: k ∧ ¬ p.1 <:+: v) → quoted k v <:+: g'
  /-- A class is kept in which no name stands that is replaced. -/
  classes : (∀ p ∈ replacements g, '"' ∉ p.1) → (∀ p ∈ nameReplacements g, ∀ c ∈ p.1, Text.isBlank c = false) →
    ∀ k v w, [k, v] <:+: (pieces g).dropLast → '=' ∈ k → '=' ∉ v →
    (∀ p ∈ replacements g, ¬ p.1 <:+: k) →
    (∀ p ∈ darkBindings g, ¬ p.1 <:+: replaceEach (nameReplacements g) v) →
    w ∈ Text.words v → w ≠ "\x7b\x7d".toList → (∀ p ∈ nameReplacements g, ¬ p.1 <:+: w) →
    ∃ v', w ∈ Text.words v' ∧ quoted k v' <:+: g'

end ClientBuild.Markup
