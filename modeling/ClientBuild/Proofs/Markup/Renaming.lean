import ClientBuild.Proofs.Markup.Frame
import ClientBuild.Proofs.Style.Faithful

/-!
# Renaming the utilities of a tag

The utilities of a tag are replaced wherever they stand in it, the longest first.  A longer name is no part of
a shorter one, and a name that is replaced has a character that no safe name has, so it is no part of a name that
was renamed before.  Hence each utility that stands alone between other characters becomes its safe name
(`replaceEach_name`), whatever other utilities it contains, and a text without characters that are written out stays
(`replaceEach_of_safe`).
-/

namespace ClientBuild.Text

/-- The texts on both sides of a character that is not replaced are treated apart. -/
theorem replaceEach_append_cons {ps : List (List Char × List Char)} {c : Char} (hc : ∀ p ∈ ps, c ∉ p.1)
    (a b : List Char) : replaceEach ps (a ++ c :: b) = replaceEach ps a ++ c :: replaceEach ps b := by
  induction ps generalizing a b with
  | nil => rfl
  | cons p ps ih =>
    obtain ⟨hp, hps⟩ := List.forall_mem_cons.1 hc
    rw [replaceEach_cons, replaceAll_append_cons hp, ih hps, replaceEach_cons, replaceEach_cons]

/-- Joined texts are treated one by one, if the separator is not replaced. -/
theorem replaceEach_join {ps : List (List Char × List Char)} {c : Char} (hc : ∀ p ∈ ps, c ∉ p.1)
    (t : List Char) (ts : List (List Char)) :
    replaceEach ps (join [c] (t :: ts)) = join [c] ((t :: ts).map (replaceEach ps)) := by
  induction ts generalizing t with
  | nil => rfl
  | cons u ts ih =>
    have hsplit (x y : List Char) (zs : List (List Char)) :
        join [c] (x :: y :: zs) = x ++ c :: join [c] (y :: zs) := List.append_assoc x [c] _
    simp only [hsplit, replaceEach_append_cons hc, ih u, List.map_cons]

end ClientBuild.Text

namespace ClientBuild.Markup

open Style (isUtility)
open Style.SafeName (encode passesThrough unsafeChars)
open Text (replaceEach)

/-! ## One name -/

/-- A name that is renamed has a character that no safe name has. -/
theorem not_infix_of_safe {n s : List Char} (hne : encode n ≠ n) (hs : ∀ c ∈ unsafeChars, c ∉ s) : ¬ n <:+: s :=
  fun hinside => hne (Style.SafeName.encode_eq_self fun c hc hmem => hs c hc (hinside.subset hmem))

/-! ## All names of a tag -/

/-- What is replaced for some names: those whose safe form differs. -/
def renamingsOf (us : List (List Char)) : List (List Char × List Char) :=
  (us.filter fun n => encode n ≠ n).map fun n => (n, encode n)

theorem renamings_eq (g : List Char) : renamings g = renamingsOf (utilitiesOf g) := rfl

theorem mem_renamingsOf {us : List (List Char)} {p : List Char × List Char} (h : p ∈ renamingsOf us) :
    p.1 ∈ us ∧ encode p.1 ≠ p.1 := by
  obtain ⟨n, hn, rfl⟩ := List.mem_map.1 h
  have := List.mem_filter.1 hn
  exact ⟨this.1, by simpa using this.2⟩

/-- A text stays that has none of the characters that no safe name has. -/
theorem replaceEach_of_safe {us : List (List Char)} {s : List Char} (hs : ∀ c ∈ unsafeChars, c ∉ s) :
    replaceEach (renamingsOf us) s = s :=
  Text.replaceEach_of_not_infix fun _ hp => not_infix_of_safe (mem_renamingsOf hp).2 hs

/-- **Each name becomes its safe form** when the names of a tag are replaced from the longest to the shortest. -/
theorem replaceEach_name {w : List Char} (hpass : passesThrough w = false) (hne : w ≠ []) :
    ∀ {us : List (List Char)}, us.Pairwise (fun a b => Text.byteSize b ≤ Text.byteSize a) → w ∈ us →
      replaceEach (renamingsOf us) w = encode w
  | u :: us, hsorted, hw => by
    obtain ⟨hlonger, hsorted⟩ := List.pairwise_cons.1 hsorted
    have hrest : replaceEach (renamingsOf us) (encode w) = encode w :=
      replaceEach_of_safe (Style.SafeName.unsafe_not_mem_encode hpass)
    by_cases hkept : encode u = u
    · have hdrop : renamingsOf (u :: us) = renamingsOf us := by
        rw [renamingsOf, List.filter_cons_of_neg (by simpa using hkept), renamingsOf]
      rw [hdrop]
      rcases List.mem_cons.1 hw with rfl | hw
      · rw [hkept] at hrest ⊢
        exact hrest
      · exact replaceEach_name hpass hne hsorted hw
    · have hcons : renamingsOf (u :: us) = (u, encode u) :: renamingsOf us := by
        rw [renamingsOf, List.filter_cons_of_pos (by simpa using hkept), List.map_cons, renamingsOf]
      rw [hcons, Text.replaceEach_cons]
      by_cases heq : u = w
      · rw [heq, Text.replaceAll_self hne, hrest]
      · have hw : w ∈ us := (List.mem_cons.1 hw).resolve_left (Ne.symm heq)
        -- The name in front is no shorter and another one, so it is no part of this one.
        have hinside : ¬ u <:+: w := fun hinside =>
          heq (Text.eq_of_infix_of_byteSize hinside (hlonger w hw))
        rw [Text.replaceAll_eq_self hinside]
        exact replaceEach_name hpass hne hsorted hw

/-- The longest utilities of a tag come first. -/
theorem pairwise_utilitiesOf (g : List Char) :
    (utilitiesOf g).Pairwise fun a b => Text.byteSize b ≤ Text.byteSize a := by
  refine (List.pairwise_mergeSort ?_ ?_ _).imp fun h => of_decide_eq_true h
  · intro a b c hab hbc
    simp only [decide_eq_true_eq] at hab hbc ⊢
    omega
  · intro a b
    simp only [Bool.or_eq_true, decide_eq_true_eq]
    omega

theorem mem_utilitiesOf {g n : List Char} : n ∈ utilitiesOf g ↔ n ∈ classNames g ∧ isUtility n = true := by
  rw [utilitiesOf, List.mem_mergeSort, List.mem_filter]

/-! ## Dark mode -/

/-- The safe name of a utility is one for dark mode only if the utility is. -/
theorem not_dark_encode {n : List Char} (hutility : isUtility n = true) (hblank : ' ' ∉ n) (hbackslash : '\\' ∉ n)
    (hlight : ¬ "dark:".toList <+: n) : Text.startsWith darkStart (encode n) = false := by
  rw [Bool.eq_false_iff, ne_eq, Text.startsWith_iff]
  intro hdark
  cases hpass : passesThrough n with
  | true =>
    rw [encode, if_pos hpass] at hdark
    obtain ⟨t, rfl⟩ := hdark
    rw [isUtility_darkStart] at hutility
    cases hutility
  | false =>
    rw [Style.SafeName.encode_of_word hpass hblank hbackslash] at hdark
    have hletters : "dark".toList <+: n := Style.SafeName.prefix_of_prefix_replaceAllIn (by decide)
      (List.IsPrefix.trans ⟨"-colon-".toList, by decide⟩ hdark)
    exact hlight (Style.dark_prefix_of_isUtility hutility hletters)

/-- A tag has no classes for dark mode if its utilities are none. -/
theorem darkNames_eq_nil {g : List Char}
    (h : ∀ n ∈ utilitiesOf g, ' ' ∉ n ∧ '\\' ∉ n ∧ ¬ "dark:".toList <+: n) : darkNames g = [] := by
  refine List.filter_eq_nil_iff.2 fun m hm => ?_
  obtain ⟨n, hn, rfl⟩ := List.mem_map.1 hm
  obtain ⟨hblank, hbackslash, hlight⟩ := h n hn
  rw [not_dark_encode (mem_utilitiesOf.1 hn).2 hblank hbackslash hlight]
  decide

end ClientBuild.Markup
