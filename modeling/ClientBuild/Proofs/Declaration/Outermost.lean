import ClientBuild.Proofs.Declaration.Members
import ClientBuild.Proofs.Declaration.Objects

/-!
# The outermost objects of a text

A text is a row of gaps and of objects that stand in no other one (`row_outermost`).  In a gap every label with
a brace behind it closes at once (`Spent`), and no gap ends inside a key.  So a text that is written like an
object occurs inside the body of an object of the row or at the end of one (`Row.occurrence`), and replacing it
there leaves a row.  When each object is replaced in its turn, with those in it, a gap is all that is left, as
long as no object inside one stands in a later one as well (`Row.foldl_refer`).
-/

namespace ClientBuild.Declaration

/-! ## Outermost objects -/

/-- The object that a text begins with; the length reaches behind its closing brace. -/
def outermost? : Text.Pattern NestedObject := fun s => (object? s).map fun p => (p.1, p.1.written.length)

/-- The objects of a text that stand in no other one, in order. -/
def outermost (s : List Char) : List NestedObject := Text.findAll outermost? s

theorem outermost_of_written {o : NestedObject} {v : List Char} (h : o.Written v) (s : List Char) :
    outermost (o.written ++ s) = o :: outermost s := by
  obtain ⟨n, hn⟩ : ∃ n, o.written.length = n + 1 := Nat.exists_eq_succ_of_ne_zero (by simp [h.eq])
  have hfound : outermost? (o.written ++ s) = some (o, n + 1) := by
    rw [outermost?, object?_of_written h, Option.map_some, hn]
  rw [outermost, Text.findAll_of_some hfound (by simp [h.eq]), ← hn, List.drop_left]
  rfl

theorem outermost_cons {c : Char} {s : List Char} (h : object? (c :: s) = none) :
    outermost (c :: s) = outermost s :=
  Text.findAll_cons_of_none (by rw [outermost?, h, Option.map_none])

/-! ## Gaps -/

/-- Does every brace behind a label close at once? -/
def Spent (g : List Char) : Prop :=
  ∀ a key v b, IsLabel key v → g = a ++ (v ++ '{' :: b) → ∃ b', b = '}' :: b'

theorem spent_nil : Spent [] := by
  intro a key v b _ h
  simp at h

/-- A gap holds no objects. -/
theorem Spent.objectsIn {g : List Char} (h : Spent g) : objectsIn g = [] := by
  refine Text.findAll_eq_nil fun x c y hxy => ?_
  rw [Option.eq_none_iff_forall_ne_some]
  rintro ⟨o, n⟩ ho
  obtain ⟨v, rest, hwritten, hsplit, -⟩ := written_of_object? ho
  rw [hsplit, hwritten.eq_append] at hxy
  obtain ⟨b', hb'⟩ := h x _ v _ hwritten.label hxy
  exact hwritten.body_append_ne _ _ hb'

/-- Where no object begins, a brace behind a label closes at once. -/
theorem eq_close_of_object? {key v b : List Char} (hlabel : IsLabel key v) (hclosing : Closing (v ++ '{' :: b))
    (hnone : object? (v ++ '{' :: b) = none) : ∃ b', b = '}' :: b' := by
  obtain ⟨⟨body, rest⟩, hbody⟩ := hclosing v b rfl
  obtain ⟨rfl, hbalanced⟩ := takeBraced?_eq_some_iff.1 hbody
  by_cases hnil : body = []
  · exact ⟨rest, by rw [hnil, List.nil_append]⟩
  · have hwritten : NestedObject.Written ⟨key, body, v ++ '{' :: (body ++ ['}'])⟩ v :=
      ⟨hlabel, hbalanced, hnil, rfl⟩
    rw [← hwritten.eq_append rest, object?_of_written hwritten] at hnone
    cases hnone

/-- A gap goes on in front, where no object begins. -/
theorem Spent.cons {c : Char} {g t : List Char} (h : Spent g) (hclosing : Closing (c :: (g ++ t)))
    (hnone : object? (c :: (g ++ t)) = none) (ht : ∀ t', t ≠ '}' :: t') : Spent (c :: g) := by
  intro a key v b hlabel hg
  cases a with
  | cons d a => exact h a key v b hlabel (List.cons.inj hg).2
  | nil =>
    have hsplit : c :: (g ++ t) = v ++ '{' :: (b ++ t) := by
      rw [← List.cons_append, hg]
      simp
    rw [hsplit] at hclosing hnone
    obtain ⟨b', hb'⟩ := eq_close_of_object? hlabel hclosing hnone
    cases b with
    | nil => exact absurd hb' (ht b')
    | cons d b => exact ⟨b, by rw [(List.cons.inj hb').1]⟩

/-- A gap is longer by a text without opening braces and a semicolon. -/
theorem Spent.append_stop {g x g' : List Char} (h : Spent g) (hx : '{' ∉ x) (h' : Spent g') :
    Spent (g ++ (x ++ ';' :: g')) := by
  intro a key v b hlabel hg
  have hstop : ';' ∉ v := hlabel.not_mem (by decide) (by decide) (by decide)
  have hsplit : (a ++ v) ++ '{' :: b = (g ++ x) ++ ';' :: g' := by simpa using hg.symm
  rcases Text.append_eq_append_cons hsplit with ⟨w, hw, rfl⟩ | ⟨w, hw, hb⟩
  · -- The label stands behind the semicolon.
    obtain ⟨z, -, rfl⟩ := Text.exists_of_append_eq hw hstop
    exact h' z key v b hlabel (List.append_assoc z v _)
  · -- The brace stands in the first gap.
    cases w with
    | nil => exact absurd (List.cons.inj hb).1 (by decide)
    | cons d w =>
      obtain ⟨rfl, rfl⟩ := List.cons.inj hb
      obtain ⟨z, rfl, rfl⟩ := Text.exists_of_append_eq hw hx
      obtain ⟨b', rfl⟩ := h a key v z hlabel (List.append_assoc a v _)
      exact ⟨_, rfl⟩

/-! ## Rows -/

/-- A text as a row of gaps and objects. -/
inductive Row : List NestedObject → List Char → Prop where
  | gap {g : List Char} : Spent g → Row [] g
  | object {g v s : List Char} {o : NestedObject} {os : List NestedObject} : Spent g →
      (∀ c, g.getLast? = some c → Text.isWordAscii c = false) → o.Written v → Row os s →
        Row (o :: os) (g ++ (o.written ++ s))

/-- The objects of a row are written in its text. -/
theorem Row.written {os : List NestedObject} {s : List Char} (h : Row os s) :
    ∀ o ∈ os, (∃ v, o.Written v) ∧ o.body.length < s.length := by
  induction h with
  | gap _ => exact fun o ho => nomatch ho
  | @object g v s o os _ _ ho _ ih =>
    refine List.forall_mem_cons.2 ⟨⟨⟨v, ho⟩, ?_⟩, fun o' ho' => ⟨(ih o' ho').1, ?_⟩⟩
    · have := ho.length_lt
      simp only [List.length_append]
      omega
    · have := (ih o' ho').2
      simp only [List.length_append]
      omega

/-- A longer key is the key of a longer object. -/
theorem NestedObject.Written.cons {o : NestedObject} {v : List Char} (h : o.Written v) {c : Char}
    (hc : Text.isWordAscii c = true) :
    NestedObject.Written ⟨c :: o.key, o.body, c :: o.written⟩ (c :: v) := by
  obtain ⟨hkey, b, d, hb, hd, hv⟩ := h.label
  exact ⟨⟨⟨List.cons_ne_nil c _, List.forall_mem_cons.2 ⟨hc, hkey.2⟩⟩, b, d, hb, hd, by rw [hv]; rfl⟩,
    h.balanced, h.ne_nil, by rw [h.eq]; rfl⟩

/-- A row goes on in front, where no object begins. -/
theorem Row.cons {os : List NestedObject} {s : List Char} {c : Char} (h : Row os s)
    (hclosing : Closing (c :: s)) (hnone : object? (c :: s) = none) : Row os (c :: s) := by
  cases h with
  | gap hg =>
    refine .gap (hg.cons (t := []) ?_ ?_ fun t' h => nomatch h)
    · rwa [List.append_nil]
    · rwa [List.append_nil]
  | @object g v s o os hg hlast ho hs =>
    refine .object (g := c :: g) (hg.cons hclosing hnone ?_) ?_ ho hs
    · intro t' ht'
      obtain ⟨d, w, hv, hd⟩ := ho.label.exists_cons
      rw [ho.eq_append, hv] at ht'
      rw [(List.cons.inj ht').1] at hd
      exact absurd hd (by decide)
    · intro d hd
      cases g with
      | cons e g =>
        rw [List.getLast?_cons_cons] at hd
        exact hlast d hd
      | nil =>
        have hcd : c = d := by simpa using hd
        subst hcd
        cases hword : Text.isWordAscii c with
        | false => rfl
        | true =>
          have hfound := object?_of_written (ho.cons hword) s
          exact absurd (hfound.symm.trans hnone) (by simp)

/-- What holds of the empty text, of a text behind an object, and of a text behind a character with which no
object begins, holds of every text whose braces are closed. -/
theorem Closing.induction {P : List Char → Prop} (nil : P [])
    (object : ∀ (o : NestedObject) v s, o.Written v → Closing s → P s → P (o.written ++ s))
    (cons : ∀ c s, Closing (c :: s) → object? (c :: s) = none → P s → P (c :: s)) :
    ∀ {s : List Char}, Closing s → P s
  | [], _ => nil
  | c :: s, h => by
    cases hfound : object? (c :: s) with
    | none => exact cons c s h hfound (Closing.induction nil object cons (Closing.of_append (x := [c]) h))
    | some p =>
      obtain ⟨o, n⟩ := p
      obtain ⟨v, rest, ho, hsplit, rfl⟩ := written_of_object? hfound
      have hshort : rest.length < (c :: s).length := by
        rw [hsplit, ho.eq_append]
        simp only [List.length_append, List.length_cons]
        omega
      rw [hsplit] at h ⊢
      exact object o v rest ho h.of_append (Closing.induction nil object cons h.of_append)
termination_by s => s.length
decreasing_by
  · exact Nat.lt_succ_self _
  · exact hshort

/-- **A text in which every brace is closed is a row** of its outermost objects. -/
theorem row_outermost {s : List Char} (h : Closing s) : Row (outermost s) s := by
  refine Closing.induction (P := fun s => Row (outermost s) s) (.gap spent_nil) ?_ ?_ h
  · intro o v s ho _ ih
    rw [outermost_of_written ho]
    exact .object (g := []) spent_nil (fun d hd => nomatch hd) ho ih
  · intro c s hclosing hnone ih
    rw [outermost_cons hnone]
    exact ih.cons hclosing hnone

/-- The objects of a text are the outermost ones, each one in front of those in it. -/
theorem objectsIn_eq_flatMap {s : List Char} (h : Closing s) :
    objectsIn s = (outermost s).flatMap fun t => t :: objectsIn t.body := by
  refine Closing.induction
    (P := fun s => objectsIn s = (outermost s).flatMap fun t => t :: objectsIn t.body) rfl ?_ ?_ h
  · intro o v s ho _ ih
    rw [objectsIn_of_written ho, outermost_of_written ho, ih]
    rfl
  · intro c s _ hnone ih
    rw [objectsIn_cons hnone, outermost_cons hnone, ih]

/-! ## Taking objects out -/

/-- A row goes on in front with a gap, a text without opening braces and a semicolon. -/
theorem Row.append_stop {g x s : List Char} {os : List NestedObject} (hg : Spent g) (hx : '{' ∉ x)
    (h : Row os s) : Row os (g ++ (x ++ ';' :: s)) := by
  cases h with
  | gap hs => exact .gap (hg.append_stop hx hs)
  | @object g' v s o os hg' hlast ho hs =>
    have hsplit : g ++ (x ++ ';' :: (g' ++ (o.written ++ s))) = g ++ (x ++ ';' :: g') ++ (o.written ++ s) := by
      simp
    rw [hsplit]
    refine .object (hg.append_stop hx hg') (fun c hc => ?_) ho hs
    rw [← List.append_assoc, List.getLast?_append, List.getLast?_cons] at hc
    cases hend : g'.getLast? with
    | none =>
      rw [hend] at hc
      cases hc
      decide
    | some d =>
      rw [hend] at hc
      cases hc
      exact hlast _ hend

/-- Of two labels with the same end the one that begins later is the end of the other one, where no key goes
on in front. -/
theorem IsLabel.exists_append {key key' v v' a g : List Char} (h : IsLabel key v) (h' : IsLabel key' v')
    (hlast : ∀ c, g.getLast? = some c → Text.isWordAscii c = false) (heq : a ++ v = g ++ v') :
    ∃ k, v' = k ++ v ∧ a = g ++ k := by
  rcases List.append_eq_append_iff.1 heq with ⟨k, hg, hv⟩ | ⟨k, ha, hv⟩
  · cases k using List.reverseRecOn with
    | nil => exact ⟨[], hv.symm, by rw [hg, List.append_nil, List.append_nil]⟩
    | append_singleton k e =>
      -- The first character of the shorter key would stand behind a blank or the colon.
      have he : Text.isWordAscii e = false := hlast e (by rw [hg, ← List.append_assoc, List.getLast?_concat])
      obtain ⟨d, w, rfl, hd⟩ := h'.exists_cons
      obtain ⟨hkey, b, c, hb, hc, rfl⟩ := h
      rcases Text.append_eq_append_cons hv with ⟨z, rfl, -⟩ | ⟨z, -, hz⟩
      · have := hkey.2 e (by simp)
        rw [he] at this
        cases this
      · have hmem : d ∈ b ++ ':' :: c := hz ▸ List.mem_append_right z List.mem_cons_self
        rcases List.mem_append.1 hmem with hmem | hmem
        · exact absurd (hb d hmem) (by simp [isBlank_of_word hd])
        · rcases List.mem_cons.1 hmem with rfl | hmem
          · exact absurd hd (by decide)
          · exact absurd (hc d hmem) (by simp [isBlank_of_word hd])
  · exact ⟨k, hv, ha⟩

/-- **Where a text that is written like an object occurs in a row**: inside the body of an object, or at the end
of one.  There it can be replaced by any text without opening braces and a semicolon, and the object is gone. -/
theorem Row.occurrence {o : NestedObject} {v x b : List Char} (ho : o.Written v) (hx : '{' ∉ x)
    {os : List NestedObject} {s : List Char} (h : Row os s) : ∀ {a : List Char}, s = a ++ (o.written ++ b) →
      (∃ u ∈ os, o.written <:+: u.body) ∨ ∃ front u back, os = front ++ u :: back ∧
        o.written <:+ u.written ∧ Row (front ++ back) (a ++ (x ++ ';' :: b)) := by
  induction h with
  | @gap g hg =>
    intro a hs
    rw [ho.eq_append] at hs
    obtain ⟨b', hb'⟩ := hg a _ v _ ho.label hs
    exact absurd hb' (ho.body_append_ne _ _)
  | @object g w s u os hg hlast hu hrow ih =>
    intro a hs
    have hsplit : (a ++ v) ++ '{' :: (o.body ++ '}' :: b) = (g ++ w) ++ '{' :: (u.body ++ '}' :: s) := by
      rw [List.append_assoc, List.append_assoc, ← ho.eq_append, ← hu.eq_append, hs]
    rcases Text.append_eq_append_cons hsplit with ⟨z, hz, hrest⟩ | ⟨z, hz, hrest⟩
    · -- The brace stands behind the one of the object.
      obtain ⟨y, rfl, rfl⟩ := Text.exists_of_append_eq hz ho.label.braceFree.1
      rcases Text.append_eq_append_cons hrest with ⟨t, ht, hbody⟩ | ⟨t, ht, hbody⟩
      · -- It is a brace of its body.
        have hbalanced := hu.balanced
        rw [ht] at hbalanced
        obtain ⟨r, rfl⟩ := hbalanced.exists_append ho.balanced hbody.symm
        refine Or.inl ⟨u, List.mem_cons_self, y, r, ?_⟩
        rw [ht, List.append_assoc, ho.eq_append, List.append_assoc]
      · -- It stands behind the object.
        cases t with
        | nil => exact absurd (List.cons.inj hbody).1 (by decide)
        | cons d t =>
          obtain ⟨rfl, rfl⟩ := List.cons.inj hbody
          obtain ⟨y, rfl, rfl⟩ := Text.exists_of_append_eq ht ho.label.braceFree.2
          have hfront : g ++ w ++ '{' :: (u.body ++ '}' :: y) = g ++ (u.written ++ y) := by
            rw [hu.eq_append, List.append_assoc]
          have hbehind : y ++ v ++ '{' :: (o.body ++ '}' :: b) = y ++ (o.written ++ b) := by
            rw [ho.eq_append, List.append_assoc]
          rcases ih hbehind with ⟨u', hu', hinside⟩ | ⟨front, u', back, rfl, hend, hrow'⟩
          · exact Or.inl ⟨u', List.mem_cons_of_mem u hu', hinside⟩
          · refine Or.inr ⟨u :: front, u', back, rfl, hend, ?_⟩
            have hleft := Row.object hg hlast hu hrow'
            rw [hfront, List.append_assoc, List.append_assoc]
            exact hleft
    · cases z with
      | nil =>
        -- It is the one of the object.
        obtain ⟨k, rfl, rfl⟩ := ho.label.exists_append hu.label hlast (by rw [hz, List.append_nil])
        have hbodies : takeBraced? 0 (o.body ++ '}' :: b) = takeBraced? 0 (u.body ++ '}' :: s) := by
          rw [(List.cons.inj hrest).2]
        rw [ho.balanced.takeBraced?, hu.balanced.takeBraced?] at hbodies
        have hbody : o.body = u.body ∧ b = s := by simpa using hbodies
        have hkey : '{' ∉ k ++ x := by
          rw [List.mem_append, not_or]
          exact ⟨fun h => hu.label.braceFree.1 (List.mem_append_left v h), hx⟩
        refine Or.inr ⟨[], u, os, rfl, ⟨k, ?_⟩, ?_⟩
        · rw [ho.eq, hu.eq, hbody.1, List.append_assoc]
        · have hleft := hrow.append_stop hg hkey
          rw [hbody.2, List.append_assoc, ← List.append_assoc k]
          exact hleft
      | cons d z =>
        -- It stands in the gap.
        obtain ⟨rfl, hbody⟩ := List.cons.inj hrest
        obtain ⟨z, hgap, rfl⟩ := Text.exists_of_append_eq hz hu.label.braceFree.1
        rw [List.append_assoc] at hgap
        obtain ⟨b', rfl⟩ := hg a _ v _ ho.label hgap
        exact absurd hbody (ho.body_append_ne _ _)

/-- An object of a row is found where it stands, when only a gap is in front of it. -/
theorem breakOn?_written {o : NestedObject} {v g : List Char} (ho : o.Written v) (hg : Spent g) (s : List Char) :
    Text.breakOn? o.written (g ++ (o.written ++ s)) = some (g, s) := by
  rw [← List.append_assoc]
  refine Text.breakOn?_append s ?_
  rintro ⟨a, b, h⟩
  have hlast : o.written.dropLast = v ++ '{' :: o.body := by
    rw [ho.eq, ← List.cons_append, ← List.append_assoc, List.dropLast_concat]
  have hsplit : (a ++ v) ++ '{' :: (o.body ++ '}' :: b) = (g ++ v) ++ '{' :: o.body := by
    rw [List.append_assoc, List.append_assoc, ← ho.eq_append, ← hlast, ← h, List.append_assoc]
  rcases Text.append_eq_append_cons hsplit with ⟨z, -, hrest⟩ | ⟨z, hz, hrest⟩
  · have := congrArg List.length hrest
    simp only [List.length_append, List.length_cons] at this
    omega
  · cases z with
    | nil =>
      have := congrArg List.length (List.cons.inj hrest).2
      simp only [List.length_append, List.length_cons] at this
      omega
    | cons d z =>
      obtain ⟨rfl, hbody⟩ := List.cons.inj hrest
      obtain ⟨z, hgap, rfl⟩ := Text.exists_of_append_eq hz ho.label.braceFree.1
      rw [List.append_assoc] at hgap
      obtain ⟨b', rfl⟩ := hg a _ v _ ho.label hgap
      exact ho.body_append_ne _ _ hbody

/-- What is put in place of an object, without the semicolon. -/
def reference (o : NestedObject) : List Char := o.key ++ ": ".toList ++ interfaceName o.key

theorem refer_of_breakOn? {o : NestedObject} {s a b : List Char} (h : Text.breakOn? o.written s = some (a, b)) :
    refer s o = a ++ (reference o ++ ';' :: b) := by
  rw [refer, Text.replaceFirst, h]
  simp [reference]

theorem not_mem_reference {o : NestedObject} {v : List Char} (ho : o.Written v) : '{' ∉ reference o := by
  have hkey := (braceFree_of_word ho.label.1).1
  have hname := (braceFree_of_word (isWord_interfaceName ho.label.1)).1
  simp [reference, hkey, hname]

/-- The first object of a row is replaced in its turn. -/
theorem Row.refer_head {o : NestedObject} {os : List NestedObject} {s : List Char} (h : Row (o :: os) s) :
    Row os (refer s o) := by
  cases h with
  | @object g v s _ _ hg _ ho hrow =>
    rw [refer_of_breakOn? (breakOn?_written ho hg s)]
    exact hrow.append_stop hg (not_mem_reference ho)

/-- The objects that still stand among those of a row.  One that is gone stands in none behind it. -/
inductive Follows : List NestedObject → List NestedObject → Prop where
  | nil : Follows [] []
  | stands {t : NestedObject} {ts us : List NestedObject} : Follows ts us → Follows (t :: ts) (t :: us)
  | gone {t : NestedObject} {ts us : List NestedObject} : (∀ u ∈ ts, ¬ t.written <:+: u.body) →
      Follows ts us → Follows (t :: ts) us

theorem Follows.refl : ∀ ts : List NestedObject, Follows ts ts
  | [] => .nil
  | _ :: ts => .stands (Follows.refl ts)

theorem Follows.subset {ts us : List NestedObject} (h : Follows ts us) : us ⊆ ts := by
  induction h with
  | nil => exact List.Subset.refl _
  | stands _ ih => exact List.cons_subset_cons _ ih
  | gone _ _ ih => exact List.Subset.trans ih (List.subset_cons_self _ _)

/-- An object goes that ends like a text which stands in none of the row. -/
theorem Follows.remove {ts us : List NestedObject} (h : Follows ts us) {p : List Char}
    (hp : ∀ u ∈ ts, ¬ p <:+: u.body) : ∀ {front back : List NestedObject} {u : NestedObject},
      us = front ++ u :: back → p <:+ u.written → Follows ts (front ++ back) := by
  induction h with
  | nil =>
    intro front back u hus _
    simp at hus
  | @stands t ts us h ih =>
    obtain ⟨-, hts⟩ := List.forall_mem_cons.1 hp
    intro front back u hus hend
    cases front with
    | nil =>
      obtain ⟨rfl, rfl⟩ := List.cons.inj hus
      exact .gone (fun u' hu' hinside => hts u' hu' (hend.isInfix.trans hinside)) h
    | cons d front =>
      obtain ⟨rfl, hrest⟩ := List.cons.inj hus
      exact .stands (ih hts hrest hend)
  | @gone t ts us hgone h ih =>
    obtain ⟨-, hts⟩ := List.forall_mem_cons.1 hp
    intro front back u hus hend
    exact .gone hgone (ih hts hus hend)

/-- **Replacing an object that stands in none of a row leaves a row.** -/
theorem Row.refer {ts us : List NestedObject} {s v : List Char} {o : NestedObject} (h : Row us s)
    (hfollows : Follows ts us) (ho : o.Written v) (hnone : ∀ u ∈ ts, ¬ o.written <:+: u.body) :
    ∃ us', Row us' (refer s o) ∧ Follows ts us' := by
  cases hbreak : Text.breakOn? o.written s with
  | none =>
    refine ⟨us, ?_, hfollows⟩
    rw [Declaration.refer, Text.replaceFirst, hbreak]
    exact h
  | some p =>
    obtain ⟨a, b⟩ := p
    have hsplit : s = a ++ (o.written ++ b) := by
      rw [← List.append_assoc]
      exact Text.eq_of_breakOn? hbreak
    rw [refer_of_breakOn? hbreak]
    rcases h.occurrence ho (not_mem_reference ho) hsplit with ⟨u, hu, hinside⟩ | ⟨front, u, back, hus, hend, hrow⟩
    · exact absurd hinside (hnone u (hfollows.subset hu))
    · exact ⟨front ++ back, hrow, hfollows.remove hnone hus hend⟩

/-- Replacing objects that stand in none of a row leaves a row. -/
theorem Row.foldl_refer_inside {ts : List NestedObject} {os : List NestedObject}
    (hos : ∀ o ∈ os, (∃ v, o.Written v) ∧ ∀ u ∈ ts, ¬ o.written <:+: u.body) {us : List NestedObject}
    {s : List Char} (h : Row us s) (hfollows : Follows ts us) :
    ∃ us', Row us' (os.foldl Declaration.refer s) ∧ Follows ts us' := by
  induction os generalizing us s with
  | nil => exact ⟨us, h, hfollows⟩
  | cons o os ih =>
    obtain ⟨⟨⟨v, ho⟩, hnone⟩, hos⟩ := List.forall_mem_cons.1 hos
    obtain ⟨us', hrow, hfollows'⟩ := h.refer hfollows ho hnone
    exact ih hos hrow hfollows'

/-- Objects none of which holds one that stands in a later one as well. -/
def Apart (ts : List NestedObject) : Prop :=
  ts.Pairwise fun t u => ∀ o ∈ objectsIn t.body, ¬ o.written <:+: u.body

/-- `Apart`, decided. -/
def isApart : List NestedObject → Bool
  | [] => true
  | t :: ts =>
    (ts.all fun u => (objectsIn t.body).all fun o => !Text.contains o.written u.body) && isApart ts

theorem isApart_iff {ts : List NestedObject} : isApart ts = true ↔ Apart ts := by
  induction ts with
  | nil => exact iff_of_true rfl .nil
  | cons t ts ih =>
    have hcons : Apart (t :: ts) ↔
        (∀ u ∈ ts, ∀ o ∈ objectsIn t.body, ¬ o.written <:+: u.body) ∧ Apart ts := List.pairwise_cons
    rw [isApart, Bool.and_eq_true, ih, hcons]
    refine and_congr_left fun _ => ?_
    simp only [List.all_eq_true, Bool.not_eq_true', Text.contains_eq_false_iff]

instance (ts : List NestedObject) : Decidable (Apart ts) := decidable_of_iff _ isApart_iff

/-- **When each object is replaced in its turn, with those in it, a gap is left.** -/
theorem Row.foldl_refer {ts us : List NestedObject} {s : List Char} (h : Row us s) (hfollows : Follows ts us)
    (hwritten : ∀ t ∈ ts, ∃ v, t.Written v) (hapart : Apart ts) :
    Spent ((ts.flatMap fun t => t :: objectsIn t.body).foldl Declaration.refer s) := by
  induction ts generalizing us s with
  | nil =>
    cases hfollows
    cases h with
    | gap hg => exact hg
  | cons t ts ih =>
    obtain ⟨⟨v, ht⟩, hwritten⟩ := List.forall_mem_cons.1 hwritten
    obtain ⟨hinside, hapart⟩ := List.pairwise_cons.1 hapart
    obtain ⟨us₁, hrow₁, hfollows₁⟩ : ∃ us₁, Row us₁ (Declaration.refer s t) ∧ Follows ts us₁ := by
      cases hfollows with
      | stands hfollows => exact ⟨_, h.refer_head, hfollows⟩
      | gone hgone hfollows => exact h.refer hfollows ht hgone
    obtain ⟨us₂, hrow₂, hfollows₂⟩ := Row.foldl_refer_inside
      (fun o ho => ⟨(written_of_mem_objectsIn ho).1, fun u hu => hinside u hu o ho⟩) hrow₁ hfollows₁
    have hstep := ih hrow₂ hfollows₂ hwritten hapart
    rw [← List.foldl_append] at hstep
    exact hstep

end ClientBuild.Declaration
