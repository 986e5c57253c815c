import ClientBuild.Proofs.Declaration.Calm
import ClientBuild.Proofs.Declaration.Chain
import ClientBuild.Proofs.Declaration.OneLine
import ClientBuild.Proofs.Declaration.Shapes

/-!
# Shapes do not read like an interface

In the service type a blank stands behind a colon or a semicolon, never behind a word (`Tight`).  Taking objects
out and putting a level on one line keeps that (`Tight.oneLine`), and an interface has a blank behind its keyword,
so that neither the service type nor a shape in it reads like one (`Tight.calm`, `tight_shapeIn`).
-/

namespace ClientBuild.Declaration

variable {a b s : List Char}

/-- Does no blank stand behind a word character? -/
def Tight (s : List Char) : Prop := s.IsChain fun c d => Text.isBlank d = true → Text.isWordAscii c = false

theorem Tight.of_infix (h : Tight s) (ha : a <:+: s) : Tight a := h.infix ha

theorem tight_nil : Tight [] := .nil

theorem Tight.cons {c : Char} (h : Tight s) (hc : Text.isWordAscii c = false) : Tight (c :: s) :=
  List.isChain_cons.2 ⟨fun _ _ _ => hc, h⟩

/-- A text can stand in front of one that begins with no blank. -/
theorem Tight.append (ha : Tight a) (hb : Tight b) (hhead : ∀ c, b.head? = some c → Text.isBlank c = false) :
    Tight (a ++ b) := by
  refine List.isChain_append.2 ⟨ha, hb, fun _ _ d hd hblank => ?_⟩
  rw [hhead d hd] at hblank
  cases hblank

theorem tight_of_forall (h : ∀ c ∈ s, Text.isBlank c = false) : Tight s := by
  induction s with
  | nil => exact tight_nil
  | cons c s ih =>
    obtain ⟨-, hs⟩ := List.forall_mem_cons.1 h
    refine List.isChain_cons.2 ⟨fun d hd hblank => ?_, ih hs⟩
    rw [hs d (List.mem_of_mem_head? hd)] at hblank
    cases hblank

theorem isBlank_head? {c : Char} (hc : Text.isBlank c = false) (s : List Char) :
    ∀ d, (c :: s).head? = some d → Text.isBlank d = false := by
  rintro d hd
  cases hd
  exact hc

/-! ## Reading like an interface -/

/-- Behind the keyword of an interface stands a blank. -/
theorem exists_blank {p : List Char × Nat} (h : plainInterface s = some p) :
    ∃ c r, s = "interface".toList ++ c :: r ∧ Text.isBlank c = true := by
  rw [plainInterface] at h
  obtain ⟨behind, hbehind, h⟩ := Option.bind_eq_some_iff.1 h
  dsimp only at h
  split at h
  next => cases h
  next hne =>
    simp only [Bool.or_eq_true, decide_eq_true_eq, not_or] at hne
    cases behind with
    | nil => exact absurd rfl hne.1
    | cons c r =>
      refine ⟨c, r, Text.after?_eq_some_iff.1 hbehind, ?_⟩
      by_contra hc
      exact hne.1 (by simp [Text.blanksBefore, hc])

/-- **A text with no blank behind a word does not read like an interface.** -/
theorem Tight.calm (h : Tight s) : Calm s := by
  intro b hb
  rw [Option.eq_none_iff_forall_ne_some]
  intro p hp
  obtain ⟨c, r, hsplit, hc⟩ := exists_blank hp
  have hclose : Text.isBlank '}' = false := by decide
  have hend : Tight (b ++ ['}']) :=
    (h.of_infix hb.isInfix).append (tight_of_forall (List.forall_mem_singleton.2 hclose)) (isBlank_head? hclose [])
  rw [hsplit] at hend
  have hword := (List.isChain_append.1 hend).2.2 'e' rfl c rfl hc
  exact absurd hword (by decide)

/-! ## The service type -/

mutual

theorem Part.Named.tight : ∀ {p : Part}, p.Named → ∀ {b : List Char}, Tight b → Tight (p.line ++ b)
  | .leaf key c, h, b, hb => by
      have hname : Tight (c.name.toList ++ ';' :: b) :=
        (tight_of_forall fun x hx => (h.2.2 x hx).isBlank).append (hb.cons (by decide)) (isBlank_head? (by decide) _)
      have hall : Tight (key.toList ++ ':' :: ' ' :: (c.name.toList ++ ';' :: b)) :=
        (tight_of_forall fun x hx => (h.1 x hx).isBlank).append ((hname.cons (by decide)).cons (by decide))
          (isBlank_head? (by decide) _)
      simpa [Part.line] using hall
  | .group key type ps, h, b, hb => by
      have hparts := NamedParts.tight h.2 ((hb.cons (c := ';') (by decide)).cons (c := '}') (by decide))
      have hopen := ((hparts.cons (c := '{') (by decide)).cons (c := ' ') (by decide)).cons (c := ':') (by decide)
      have hall := (tight_of_forall fun x hx => (h.1 x hx).isBlank).append hopen (isBlank_head? (by decide) _)
      simpa [Part.line] using hall

theorem NamedParts.tight : ∀ {ps : List Part}, NamedParts ps → ∀ {b : List Char}, Tight b → Tight (linesOf ps ++ b)
  | [], _, _, hb => hb
  | p :: ps, h, b, hb => by
      rw [linesOf, List.append_assoc]
      exact h.1.tight (NamedParts.tight h.2 hb)

end

theorem tight_linesOf {ps : List Part} (h : NamedParts ps) : Tight (linesOf ps) := by
  simpa using h.tight tight_nil

/-! ## One level on one line -/

theorem Tight.trim (h : Tight s) : Tight (Text.trim s) := by
  obtain ⟨l, r, -, -, hs⟩ := Text.exists_eq_append_trim s
  exact h.of_infix ⟨l, r, hs.symm⟩

theorem Tight.refer {o : NestedObject} {v : List Char} (h : Tight s) (ho : o.Written v) : Tight (refer s o) := by
  cases hbreak : Text.breakOn? o.written s with
  | none =>
    rw [Declaration.refer, Text.replaceFirst, hbreak]
    exact h
  | some p =>
    obtain ⟨x, y⟩ := p
    have hsplit := Text.eq_of_breakOn? hbreak
    have hx : Tight x := h.of_infix ⟨[], o.written ++ y, by simp [hsplit]⟩
    have hy : Tight y := h.of_infix ⟨x ++ o.written, [], by simp [hsplit]⟩
    have hblank : ∀ {w : List Char}, IsWord w → ∀ c ∈ w, Text.isBlank c = false := fun hw c hc =>
      isBlank_of_word (hw.2 c hc)
    have hname := (tight_of_forall (hblank (isWord_interfaceName ho.label.1))).append (hy.cons (c := ';') (by decide))
      (isBlank_head? (by decide) _)
    have hreference := (tight_of_forall (hblank ho.label.1)).append
      ((hname.cons (c := ' ') (by decide)).cons (c := ':') (by decide)) (isBlank_head? (by decide) _)
    obtain ⟨c, key, hkey⟩ := List.exists_cons_of_ne_nil ho.label.1.1
    have hc : Text.isBlank c = false := hblank ho.label.1 c (hkey ▸ List.mem_cons_self)
    have hall := hx.append hreference (hkey ▸ isBlank_head? hc _)
    rw [refer_of_breakOn? hbreak]
    simpa [reference] using hall

theorem Tight.foldl_refer {os : List NestedObject} (hos : ∀ o ∈ os, ∃ v, o.Written v) (h : Tight s) :
    Tight (os.foldl Declaration.refer s) := by
  induction os generalizing s with
  | nil => exact h
  | cons o os ih =>
    obtain ⟨⟨v, ho⟩, hos⟩ := List.forall_mem_cons.1 hos
    exact ih hos (h.refer ho)

theorem Tight.replace_stops {x u y : List Char} (h : Tight (x ++ (u ++ y))) : Tight (x ++ ([';', ' '] ++ y)) := by
  have hx : Tight x := h.of_infix (List.prefix_append _ _).isInfix
  have hy : Tight y := h.of_infix ((List.suffix_append u y).trans (List.suffix_append x _)).isInfix
  exact hx.append ((hy.cons (by decide)).cons (by decide)) (isBlank_head? (by decide) _)

theorem Tight.replace_blanks {x u y : List Char} (h : Tight (x ++ (u ++ y))) (hne : u ≠ [])
    (hu : ∀ c ∈ u, Text.isBlank c = true) : Tight (x ++ ([' '] ++ y)) := by
  obtain ⟨c, u, rfl⟩ := List.exists_cons_of_ne_nil hne
  obtain ⟨hx, hrest, hjoint⟩ := List.isChain_append.1 h
  have hy : Tight y := Tight.of_infix hrest (List.suffix_append (c :: u) y).isInfix
  refine List.isChain_append.2 ⟨hx, hy.cons (by decide), fun d hd _ _ _ => ?_⟩
  exact hjoint d hd c rfl (hu c List.mem_cons_self)

/-- **A tight text stays tight** when objects of it are replaced and it is put on one line. -/
theorem Tight.oneLine {os : List NestedObject} (hos : ∀ o ∈ os, ∃ v, o.Written v) (h : Tight s) :
    Tight (oneLine s os) := by
  have hstops : Tight (Text.replaceMatches semicolonRun (os.foldl Declaration.refer s)) :=
    Text.replaceMatches_run_keeps (fun _ _ _ _ _ hs => hs.replace_stops) (h.foldl_refer hos)
  have hblanks : Tight (Text.replaceMatches blankRun
      (Text.replaceMatches semicolonRun (os.foldl Declaration.refer s))) :=
    Text.replaceMatches_run_keeps (fun _ _ _ hne hu hs => hs.replace_blanks hne hu) hstops
  exact hblanks.trim

theorem tight_level (h : Tight s) : Tight (oneLine (Text.trim s) (objectsIn s)) :=
  h.trim.oneLine fun _ ho => (written_of_mem_objectsIn ho).1

/-- No shape in a tight text reads like an interface. -/
theorem tight_shapeIn (h : Tight s) {o : NestedObject} (ho : o ∈ objectsIn s) : Tight (shapeIn o).2 :=
  (h.of_infix (infix_of_mem_objectsIn ho)).trim.oneLine fun _ ho' => (written_of_mem_objectsIn ho').1

end ClientBuild.Declaration
