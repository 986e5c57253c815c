import ClientBuild.Json.Number
import ClientBuild.Json.Printer

/-!
# Numbers, written and read

Every number that is written is read as one number again: the reader takes exactly the characters
of the number, whatever follows, as long as no number could go on there.  `Number.reading` is what
it makes of them.  The digits of a fraction may come back as a neighbouring number, or as one out
of range; integers of 64 bits always come back as themselves (`reading_integer`).

The scanners are shown to be *local* first: on digits followed by something else they do what they
do on the digits alone, and leave the rest.  The shape of what the printer writes is then followed
part by part — sign, digits, fraction, exponent.
-/

namespace ClientBuild.Json

/-! ## The scanners on their own digits -/

/-- The text starts with no character that `p` accepts. -/
def StopsAt (p : Char → Bool) (s : List Char) : Prop := ∀ c t, s = c :: t → p c = false

theorem stopsAt_nil (p : Char → Bool) : StopsAt p [] := fun _ _ h => nomatch h

theorem stopsAt_cons {p : Char → Bool} {c : Char} (h : p c = false) (s : List Char) :
    StopsAt p (c :: s) := fun _ _ he => by
  cases he
  exact h

theorem StopsAt.mono {p q : Char → Bool} {s : List Char} (h : StopsAt p s)
    (hq : ∀ c, q c = true → p c = true) : StopsAt q s := fun c t he => by
  cases hc : q c with
  | false => rfl
  | true => exact absurd (hq c hc) (by simp [h c t he])

/-- A character that a number may go on with. -/
def goesOn (c : Char) : Bool := isDigit c || c == '.' || c == 'e' || c == 'E'

theorem StopsAt.digits {s : List Char} (h : StopsAt goesOn s) : StopsAt isDigit s :=
  h.mono fun c hc => by simp [goesOn, hc]

/-! ## Runs of digits -/

section Digits

variable {rest ds : List Char}

theorem whole_append (hr : StopsAt isDigit rest) (scan : NumberScan)
    (h : ∀ c ∈ ds, isDigit c = true) :
    scan.whole (ds ++ rest) = ((scan.whole ds).1, rest) := by
  induction ds generalizing scan with
  | nil =>
    cases rest with
    | nil => rfl
    | cons c s => simp [NumberScan.whole, hr c s rfl]
  | cons d ds ih =>
    obtain ⟨hd, hds⟩ := List.forall_mem_cons.1 h
    simp only [List.cons_append, NumberScan.whole, hd, if_true]
    split
    · exact ih _ hds
    · exact ih _ hds

theorem whole_length (scan : NumberScan) (h : ∀ c ∈ ds, isDigit c = true) :
    (scan.whole ds).1.length = scan.length + ds.length := by
  induction ds generalizing scan with
  | nil => rfl
  | cons d ds ih =>
    obtain ⟨hd, hds⟩ := List.forall_mem_cons.1 h
    simp only [NumberScan.whole, hd, if_true, List.length_cons]
    split
    · rw [ih _ hds]
      simp only
      omega
    · rw [ih _ hds]
      simp only
      omega

theorem fraction_append (hr : StopsAt isDigit rest) (full : Bool) (scan : NumberScan)
    (h : ∀ c ∈ ds, isDigit c = true) :
    scan.fraction full (ds ++ rest) = ((scan.fraction full ds).1, rest) := by
  induction ds generalizing full scan with
  | nil =>
    cases rest with
    | nil => rfl
    | cons c s => simp [NumberScan.fraction, hr c s rfl]
  | cons d ds ih =>
    obtain ⟨hd, hds⟩ := List.forall_mem_cons.1 h
    simp only [List.cons_append, NumberScan.fraction, hd, if_true]
    split
    · exact ih _ _ hds
    · exact ih _ _ hds

theorem fraction_length (full : Bool) (scan : NumberScan) (h : ∀ c ∈ ds, isDigit c = true) :
    (scan.fraction full ds).1.length = scan.length + ds.length := by
  induction ds generalizing full scan with
  | nil => rfl
  | cons d ds ih =>
    obtain ⟨hd, hds⟩ := List.forall_mem_cons.1 h
    simp only [NumberScan.fraction, hd, if_true, List.length_cons]
    split
    · rw [ih _ _ hds]
      simp only
      omega
    · rw [ih _ _ hds]
      simp only
      omega

theorem takeWhile_digits (hr : StopsAt isDigit rest) (h : ∀ c ∈ ds, isDigit c = true) :
    (ds ++ rest).takeWhile isDigit = ds := by
  induction ds with
  | nil =>
    cases rest with
    | nil => rfl
    | cons c s => simp [hr c s rfl]
  | cons d ds ih =>
    obtain ⟨hd, hds⟩ := List.forall_mem_cons.1 h
    rw [List.cons_append, List.takeWhile_cons, if_pos hd, ih hds]

end Digits

/-! ## The parts of a written number -/

/-- What stands behind the digits of a number: nothing, or an exponent. -/
inductive ExponentText : List Char → Prop
  | none : ExponentText []
  | some {sign ds : List Char} : sign = [] ∨ sign = ['+'] ∨ sign = ['-'] → ds ≠ [] →
      (∀ c ∈ ds, isDigit c = true) → ExponentText ('e' :: sign ++ ds)

/-- What stands behind the whole digits of a number: nothing, or a point with digits. -/
inductive FractionText : List Char → Prop
  | none : FractionText []
  | some {ds : List Char} : ds ≠ [] → (∀ c ∈ ds, isDigit c = true) → FractionText ('.' :: ds)

/-- The digits in front of the point: a single zero, or digits that do not start with one. -/
def WholeText (ds : List Char) : Prop :=
  (∀ c ∈ ds, isDigit c = true) ∧ ∃ d t, ds = d :: t ∧ (d = '0' → t = [])

theorem digit_ne {d : Char} (hd : isDigit d = true) :
    d ≠ '-' ∧ d ≠ '+' ∧ d ≠ '.' ∧ d ≠ 'e' ∧ d ≠ 'E' := by
  refine ⟨?_, ?_, ?_, ?_, ?_⟩ <;> (rintro rfl; revert hd; decide)

/-- An exponent is read to its end, whatever follows. -/
theorem exponentPart?_append {sign ds : List Char} (hs : sign = [] ∨ sign = ['+'] ∨ sign = ['-'])
    (hne : ds ≠ []) (hds : ∀ c ∈ ds, isDigit c = true) :
    ∃ e : Int, ∀ rest, StopsAt isDigit rest →
      exponentPart? (sign ++ ds ++ rest) = some (e, sign.length + ds.length) := by
  have hempty : ds.isEmpty = false := by simpa using hne
  rcases hs with rfl | rfl | rfl
  · refine ⟨natOfDigits ds, fun rest hr => ?_⟩
    have htake := takeWhile_digits hr hds
    obtain ⟨d, t, rfl⟩ := List.exists_cons_of_ne_nil hne
    obtain ⟨hminus, hplus, -⟩ := digit_ne (hds d List.mem_cons_self)
    simp only [List.cons_append, List.nil_append] at htake ⊢
    simp [exponentPart?, hminus, hplus, htake]
  · refine ⟨natOfDigits ds, fun rest hr => ?_⟩
    simp [exponentPart?, takeWhile_digits hr hds, hne]
  · refine ⟨-natOfDigits ds, fun rest hr => ?_⟩
    simp [exponentPart?, takeWhile_digits hr hds, hne]

/-- The end of a number that is not an integer is read to its end, whatever follows. -/
theorem finishFloat?_append (negative : Bool) (scan : NumberScan) {x : List Char}
    (hx : ExponentText x) :
    ∃ v, ∀ rest, StopsAt goesOn rest →
      finishFloat? negative scan (x ++ rest) = some (v, scan.length + x.length) := by
  cases hx with
  | none =>
      refine ⟨(ofParts? negative scan.significand (scan.exponent + 0)).map .float,
        fun rest hr => ?_⟩
      cases rest with
      | nil => rfl
      | cons c s =>
          have hc : (c == 'e') = false ∧ (c == 'E') = false := by
            have := hr c s rfl
            simp only [goesOn, Bool.or_eq_false_iff] at this
            exact ⟨this.1.2, this.2⟩
          have he : c ≠ 'e' := by simpa using hc.1
          have hE : c ≠ 'E' := by simpa using hc.2
          simp [finishFloat?, he, hE]
  | @some sign ds hs hne hds =>
      obtain ⟨e, he⟩ := exponentPart?_append hs hne hds
      refine ⟨(ofParts? negative scan.significand (scan.exponent + e)).map .float,
        fun rest hr => ?_⟩
      have := he rest hr.digits
      simp only [List.append_assoc] at this
      simp [finishFloat?, this]
      omega

theorem ExponentText.stopsAt {x rest : List Char} (hx : ExponentText x)
    (hr : StopsAt goesOn rest) : StopsAt isDigit (x ++ rest) := by
  cases hx with
  | none => exact hr.digits
  | some hs _ _ => exact stopsAt_cons (by decide) _

theorem FractionText.stopsAt {f x rest : List Char} (hf : FractionText f) (hx : ExponentText x)
    (hr : StopsAt goesOn rest) : StopsAt isDigit (f ++ (x ++ rest)) := by
  cases hf with
  | none => exact hx.stopsAt hr
  | some _ _ => exact stopsAt_cons (by decide) _

/-- What `unsignedNumber?` does behind the whole digits. -/
def afterWhole (negative : Bool) (scan : NumberScan) (s : List Char) :
    Option (Option Number × Nat) :=
  match s with
  | '.' :: u =>
    let start := { scan with length := scan.length + 1 }
    let (scan', rest) := NumberScan.fraction false start u
    if scan'.length = start.length then none else finishFloat? negative scan' rest
  | 'e' :: _ | 'E' :: _ => finishFloat? negative scan s
  | _ =>
    if scan.exponent = 0 then some (integer negative scan.significand, scan.length)
    else finishFloat? negative scan s

theorem unsignedNumber?_whole (negative : Bool) (k : Nat) {d : Char} {t rest : List Char}
    (hd : isDigit d = true) (ht : ∀ c ∈ t, isDigit c = true) (hz : d = '0' → t = [])
    (hr : StopsAt isDigit rest) :
    unsignedNumber? negative k (d :: t ++ rest) =
      afterWhole negative (NumberScan.whole ⟨digitValue d, 0, k + 1⟩ t).1 rest := by
  have hzero : (decide (d = '0') && ((t ++ rest).head?.map isDigit).getD false) = false := by
    by_cases h0 : d = '0'
    · subst h0
      rw [hz rfl]
      cases rest with
      | nil => rfl
      | cons c s => simp [hr c s rfl]
    · simp [h0]
  simp only [List.cons_append, unsignedNumber?, hd, Bool.not_true, Bool.false_eq_true, if_false,
    hzero, whole_append hr _ ht]
  rfl

theorem afterWhole_plain (negative : Bool) (scan : NumberScan) :
    ∃ v, ∀ rest, StopsAt goesOn rest → afterWhole negative scan rest = some (v, scan.length) := by
  obtain ⟨v, hv⟩ := finishFloat?_append negative scan .none
  have key : ∀ rest, StopsAt goesOn rest → afterWhole negative scan rest =
      if scan.exponent = 0 then some (some (integer negative scan.significand), scan.length)
      else finishFloat? negative scan rest := by
    intro rest hr
    unfold afterWhole
    split
    · exact absurd (hr _ _ rfl) (by decide)
    · exact absurd (hr _ _ rfl) (by decide)
    · exact absurd (hr _ _ rfl) (by decide)
    · rfl
  by_cases he : scan.exponent = 0
  · refine ⟨integer negative scan.significand, fun rest hr => ?_⟩
    rw [key rest hr, if_pos he]
  · refine ⟨v, fun rest hr => ?_⟩
    rw [key rest hr, if_neg he]
    exact hv rest hr

theorem afterWhole_append (negative : Bool) (scan : NumberScan) {f x : List Char}
    (hf : FractionText f) (hx : ExponentText x) :
    ∃ v, ∀ rest, StopsAt goesOn rest →
      afterWhole negative scan (f ++ (x ++ rest)) = some (v, scan.length + (f ++ x).length) := by
  cases hf with
  | none =>
      cases hx with
      | none => exact afterWhole_plain negative scan
      | some hs hne hds =>
          obtain ⟨v, hv⟩ := finishFloat?_append negative scan (.some hs hne hds)
          exact ⟨v, hv⟩
  | @some ds hne hds =>
      obtain ⟨v, hv⟩ := finishFloat?_append negative
        (NumberScan.fraction false { scan with length := scan.length + 1 } ds).1 hx
      refine ⟨v, fun rest hr => ?_⟩
      have hlen := fraction_length false { scan with length := scan.length + 1 } hds
      have hpos : 0 < ds.length := List.length_pos_iff.2 hne
      simp only [List.cons_append, afterWhole, fraction_append (hx.stopsAt hr) _ _ hds]
      rw [if_neg (by simp only at hlen; omega), hv rest hr, hlen]
      simp only [List.length_cons, List.length_append]
      congr 2
      omega

/-- An unsigned number is read to its end, whatever follows. -/
theorem unsignedNumber?_append (negative : Bool) (k : Nat) {ds f x : List Char}
    (hds : WholeText ds) (hf : FractionText f) (hx : ExponentText x) :
    ∃ v, ∀ rest, StopsAt goesOn rest →
      unsignedNumber? negative k (ds ++ (f ++ (x ++ rest))) =
        some (v, k + (ds ++ (f ++ x)).length) := by
  obtain ⟨hall, d, t, rfl, hz⟩ := hds
  have hd : isDigit d = true := hall d List.mem_cons_self
  have ht : ∀ c ∈ t, isDigit c = true := fun c hc => hall c (List.mem_cons_of_mem _ hc)
  have hlen := whole_length ⟨digitValue d, 0, k + 1⟩ ht
  obtain ⟨v, hv⟩ := afterWhole_append negative
    (NumberScan.whole ⟨digitValue d, 0, k + 1⟩ t).1 hf hx
  refine ⟨v, fun rest hr => ?_⟩
  rw [unsignedNumber?_whole negative k hd ht hz (hf.stopsAt hx hr), hv rest hr, hlen]
  simp only [List.length_cons, List.length_append]
  congr 2
  omega

/-- The text of a number: an optional sign, whole digits, an optional fraction and an optional
exponent. -/
inductive NumberText : List Char → Prop
  | mk {sign ds f x : List Char} : sign = [] ∨ sign = ['-'] → WholeText ds → FractionText f →
      ExponentText x → NumberText (sign ++ (ds ++ (f ++ x)))

theorem number?_digit {d : Char} (hd : isDigit d = true) (s : List Char) :
    number? (d :: s) = unsignedNumber? false 0 (d :: s) := by
  unfold number?
  split
  next heq => exact absurd (List.cons.inj heq).1 (digit_ne hd).1
  next => rfl

/-- **A number is read to its end, whatever follows**: what is read does not depend on it. -/
theorem number?_append {s : List Char} (h : NumberText s) :
    ∃ v, ∀ rest, StopsAt goesOn rest → number? (s ++ rest) = some (v, s.length) := by
  obtain ⟨hsign, hds, hf, hx⟩ := h
  rcases hsign with rfl | rfl
  · obtain ⟨v, hv⟩ := unsignedNumber?_append false 0 hds hf hx
    refine ⟨v, fun rest hr => ?_⟩
    have := hv rest hr
    obtain ⟨hall, d, t, rfl, -⟩ := hds
    simp only [List.nil_append, List.append_assoc, List.cons_append] at this ⊢
    rw [number?_digit (hall d List.mem_cons_self), this]
    simp
  · obtain ⟨v, hv⟩ := unsignedNumber?_append true 1 hds hf hx
    refine ⟨v, fun rest hr => ?_⟩
    have := hv rest hr
    simp only [List.append_assoc, List.cons_append, List.nil_append, number?] at this ⊢
    rw [this]
    simp only [List.length_cons]
    congr 2
    omega

/-! ## What the printer writes -/

theorem isDigit_of_mem_digitsOf {n : Nat} {c : Char} (h : c ∈ digitsOf n) : isDigit c = true :=
  Nat.isDigit_of_mem_toDigits (by decide) (by decide) h

theorem digitsOf_ne_nil (n : Nat) : digitsOf n ≠ [] := Nat.toDigits_ne_nil

theorem digitsOf_lt {n : Nat} (h : n < 10) : digitsOf n = [n.digitChar] :=
  Nat.toDigits_of_lt_base h

theorem digitsOf_ge {n : Nat} (h : 10 ≤ n) :
    digitsOf n = digitsOf (n / 10) ++ [(n % 10).digitChar] :=
  Nat.toDigits_of_base_le (by decide) h

/-- The digits of a positive number do not start with a zero. -/
theorem digitsOf_head {n : Nat} (h : 0 < n) : ∃ d t, digitsOf n = d :: t ∧ d ≠ '0' := by
  induction n using Nat.strongRecOn with
  | _ n ih =>
      by_cases hn : n < 10
      · refine ⟨n.digitChar, [], digitsOf_lt hn, ?_⟩
        have small : ∀ k, k < 10 → 0 < k → k.digitChar ≠ '0' := by decide
        exact small n hn h
      · obtain ⟨d, t, ht, hd⟩ := ih (n / 10) (by omega) (by omega)
        exact ⟨d, t ++ [(n % 10).digitChar], by rw [digitsOf_ge (by omega), ht]; rfl, hd⟩

theorem wholeText_digitsOf (n : Nat) : WholeText (digitsOf n) := by
  refine ⟨fun c hc => isDigit_of_mem_digitsOf hc, ?_⟩
  rcases Nat.eq_zero_or_pos n with rfl | hn
  · exact ⟨'0', [], rfl, fun _ => rfl⟩
  · obtain ⟨d, t, ht, hd⟩ := digitsOf_head hn
    exact ⟨d, t, ht, fun h0 => absurd h0 hd⟩

/-- Digits that do not start with a zero may have more digits behind them. -/
theorem wholeText_of_head {d : Char} {t : List Char} (hd : d ≠ '0')
    (hall : ∀ c ∈ d :: t, isDigit c = true) : WholeText (d :: t) :=
  ⟨hall, d, t, rfl, fun h0 => absurd h0 hd⟩

theorem numberText_digitsOfInt (i : Int) : NumberText (digitsOfInt i) := by
  have key : ∀ sign, sign = [] ∨ sign = ['-'] → NumberText (sign ++ digitsOf i.natAbs) := by
    intro sign hs
    have := NumberText.mk hs (wholeText_digitsOf i.natAbs) .none .none
    simpa using this
  unfold digitsOfInt
  split
  · exact key ['-'] (.inr rfl)
  · exact key [] (.inl rfl)

theorem normalizeFrom_pos (fuel : Nat) {d : Decimal} (h : 0 < d.digits) :
    0 < (Decimal.normalizeFrom fuel d).digits := by
  induction fuel generalizing d with
  | zero => exact h
  | succ k ih =>
    unfold Decimal.normalizeFrom
    split
    · refine ih ?_
      simp only
      omega
    · exact h

theorem onGrid?_pos {tie : TieRule} {i : Interval} {e : Int} {d : Decimal}
    (h : i.onGrid? tie e = some d) : 0 < d.digits := by
  unfold Interval.onGrid? at h
  simp only at h
  generalize (Decimal.scale i.value i.den (-e)).1 / (Decimal.scale i.value i.den (-e)).2 = q at h
  split at h
  next hq _ =>
    have hpos : q ≠ 0 := by
      rintro rfl
      simp at hq
    have either : ∀ b : Bool, 0 < if b then q + 1 else q := by
      intro b
      cases b with
      | false =>
        simp only [Bool.false_eq_true, if_false]
        omega
      | true =>
        simp only [if_true]
        omega
    simp only [Option.some.injEq] at h
    rw [← h]
    exact either _
  next hq _ =>
    have hpos : q ≠ 0 := by
      rintro rfl
      simp at hq
    simp only [Option.some.injEq] at h
    rw [← h]
    simp only
    omega
  next =>
    simp only [Option.some.injEq] at h
    rw [← h]
    simp only
    omega
  next => exact absurd h (by simp)

theorem shortestFrom_pos (tie : TieRule) {i : Interval} (hi : 0 < i.value) (lead : Int)
    (fuel n : Nat) : 0 < (i.shortestFrom tie lead fuel n).digits := by
  induction fuel generalizing n with
  | zero => exact hi
  | succ k ih =>
    unfold Interval.shortestFrom
    split
    next d hd => exact onGrid?_pos hd
    next => exact ih (n + 1)

/-- The shortest decimal of a number that is not zero is not zero. -/
theorem shortest_pos (tie : TieRule) {m : Nat} (e : Int) (hm : m ≠ 0) :
    0 < (Binary64.shortest tie m e).digits := by
  refine normalizeFrom_pos 20 (shortestFrom_pos tie ?_ _ 17 1)
  have hscale : 0 < (Binary64.scale m 1 e).1 := by
    unfold Binary64.scale
    split
    · exact Nat.mul_pos (by omega) (Nat.pow_pos (by decide))
    · simp only
      omega
  simp only [Binary64.interval]
  omega

theorem point_zero : FractionText ['.', '0'] :=
  .some (by simp) fun c hc => by
    rw [List.mem_singleton.1 hc]
    decide

theorem isDigit_of_mem_zeros {n : Nat} {a : Char} (ha : a ∈ List.replicate n '0') :
    isDigit a = true := by
  rw [(List.mem_replicate.1 ha).2]
  decide

theorem wholeText_zero : WholeText ['0'] := by
  refine ⟨?_, '0', [], rfl, fun _ => rfl⟩
  intro a ha
  rw [List.mem_singleton.1 ha]
  decide

/-- Positional notation of a positive decimal is a number. -/
theorem numberText_positional {d : Decimal} (hd : 0 < d.digits) {sign : List Char}
    (hs : sign = [] ∨ sign = ['-']) : NumberText (sign ++ NumberLayout.positional d) := by
  obtain ⟨c, t, ht, hc⟩ := digitsOf_head hd
  have hall : ∀ a ∈ c :: t, isDigit a = true := fun a ha =>
    isDigit_of_mem_digitsOf (n := d.digits) (ht ▸ ha)
  unfold NumberLayout.positional
  simp only [ht]
  split
  · have hall' : ∀ a ∈ c :: (t ++ List.replicate d.exponent.toNat '0'), isDigit a = true := by
      intro a ha
      rw [← List.cons_append, List.mem_append] at ha
      rcases ha with h | h
      · exact hall a h
      · exact isDigit_of_mem_zeros h
    have htext := NumberText.mk hs (wholeText_of_head hc hall') point_zero .none
    simpa using htext
  · next hneg =>
    have hplaces : 0 < (-d.exponent).toNat := by omega
    split
    · have hfrac : FractionText
          ('.' :: (List.replicate ((-d.exponent).toNat - (c :: t).length) '0' ++ c :: t)) := by
        refine .some (by simp) fun a ha => ?_
        rcases List.mem_append.1 ha with h | h
        · exact isDigit_of_mem_zeros h
        · exact hall a h
      have htext := NumberText.mk hs wholeText_zero hfrac .none
      simpa using htext
    · next hlong =>
      have hlen : 0 < (c :: t).length - (-d.exponent).toNat := by omega
      obtain ⟨n, hn⟩ : ∃ n, (c :: t).length - (-d.exponent).toNat = n + 1 :=
        ⟨(c :: t).length - (-d.exponent).toNat - 1, by omega⟩
      rw [hn]
      have hdrop : (c :: t).drop (n + 1) ≠ [] := by
        intro h
        have hlength := congrArg List.length h
        simp only [List.length_drop, List.length_nil] at hlength
        omega
      have hfrac : FractionText ('.' :: (c :: t).drop (n + 1)) :=
        .some hdrop fun a ha => hall a (List.mem_of_mem_drop ha)
      have hwhole : WholeText ((c :: t).take (n + 1)) :=
        wholeText_of_head hc fun a ha => hall a (List.mem_of_mem_take (i := n + 1) ha)
      have htext := NumberText.mk hs hwhole hfrac .none
      simpa using htext

theorem exponentText_digitsOfInt (e : Int) :
    ExponentText ('e' :: (if true && decide (0 ≤ e) then ['+'] else []) ++ digitsOfInt e) := by
  have hds : ∀ c ∈ digitsOf e.natAbs, isDigit c = true := fun c hc => isDigit_of_mem_digitsOf hc
  unfold digitsOfInt
  by_cases he : e < 0
  · have hn : ¬ 0 ≤ e := by omega
    have hsign : ['-'] = [] ∨ ['-'] = ['+'] ∨ ['-'] = ['-'] := .inr (.inr rfl)
    have := ExponentText.some hsign (digitsOf_ne_nil e.natAbs) hds
    simpa [he, hn] using this
  · have hn : 0 ≤ e := by omega
    have hsign : ['+'] = [] ∨ ['+'] = ['+'] ∨ ['+'] = ['-'] := .inr (.inl rfl)
    have := ExponentText.some hsign (digitsOf_ne_nil e.natAbs) hds
    simpa [he, hn] using this

/-- Scientific notation of a positive decimal is a number. -/
theorem numberText_scientific {d : Decimal} (hd : 0 < d.digits) {sign : List Char}
    (hs : sign = [] ∨ sign = ['-']) : NumberText (sign ++ NumberLayout.scientific true d) := by
  obtain ⟨c, t, ht, hc⟩ := digitsOf_head hd
  have hall : ∀ a ∈ c :: t, isDigit a = true := fun a ha =>
    isDigit_of_mem_digitsOf (n := d.digits) (ht ▸ ha)
  have hexp := exponentText_digitsOfInt (d.exponent + (c :: t).length - 1)
  unfold NumberLayout.scientific
  simp only [ht]
  have hone : WholeText [c] := wholeText_of_head hc fun a ha => hall a (by
    rw [List.mem_singleton.1 ha]
    exact List.mem_cons_self)
  cases t with
  | nil =>
      have := NumberText.mk hs hone .none hexp
      simpa using this
  | cons a as =>
      have hfrac : FractionText ('.' :: a :: as) :=
        .some (by simp) fun b hb => hall b (List.mem_cons_of_mem _ hb)
      have := NumberText.mk hs hone hfrac hexp
      simpa using this

/-- A finite number is written as a number. -/
theorem numberText_render_float {s : Bool} {m : Nat} {e : Int} :
    NumberText (numberLayout.render (.finite s m e)) := by
  have hs : (if s then ['-'] else []) = [] ∨ (if s then ['-'] else []) = ['-'] := by
    cases s
    · exact .inl rfl
    · exact .inr rfl
  simp only [NumberLayout.render]
  by_cases hm : m = 0
  · rw [if_pos hm]
    have hzero : WholeText ['0'] := wholeText_digitsOf 0
    have := NumberText.mk hs hzero point_zero .none
    simpa using this
  · rw [if_neg hm]
    have hpos := shortest_pos numberLayout.tie e hm
    generalize Binary64.shortest numberLayout.tie m e = d at hpos
    by_cases hpositional : (decide (numberLayout.low ≤ d.exponent + (digitsOf d.digits).length - 1) &&
        decide (d.exponent + (digitsOf d.digits).length - 1 < numberLayout.high)) = true
    · rw [if_pos hpositional]
      exact numberText_positional hpos hs
    · rw [if_neg hpositional]
      exact numberText_scientific hpos hs

/-! ## What reading makes of a written number -/

/-- Does a number have a text of its own?  An infinite one is written as `null`. -/
def Number.isWritten : Number → Bool
  | .integer _ => true
  | .float x => x.isFinite

theorem numberText_render {n : Number} (h : n.isWritten = true) : NumberText n.render := by
  cases n with
  | integer i => exact numberText_digitsOfInt i
  | float x =>
      cases x with
      | finite s m e =>
          simp only [Number.render, Binary64.isFinite, if_true]
          exact numberText_render_float
      | infinite s => exact absurd h (by simp [Number.isWritten, Binary64.isFinite])
      | nan => exact absurd h (by simp [Number.isWritten, Binary64.isFinite])

/-- What reading makes of the text of a number; `none` if the text is out of range. -/
def Number.reading (n : Number) : Option Number := (number? n.render).bind (·.1)

theorem number?_render {n : Number} (h : n.isWritten = true) {rest : List Char}
    (hr : StopsAt goesOn rest) :
    number? (n.render ++ rest) = some (n.reading, n.render.length) := by
  obtain ⟨v, hv⟩ := number?_append (numberText_render h)
  have hself : number? n.render = some (v, n.render.length) := by
    simpa using hv [] (stopsAt_nil _)
  rw [hv rest hr, Number.reading, hself]
  rfl

/-! ## Integers of 64 bits come back -/

theorem digitValue_digitChar {d : Nat} (h : d < 10) : digitValue d.digitChar = d := by
  have small : ∀ d, d < 10 → digitValue d.digitChar = d := by decide
  exact small d h

theorem natOfDigits_append (ds es : List Char) :
    natOfDigits (ds ++ es) = es.foldl (fun n c => 10 * n + digitValue c) (natOfDigits ds) :=
  List.foldl_append

theorem natOfDigits_digitsOf (n : Nat) : natOfDigits (digitsOf n) = n := by
  induction n using Nat.strongRecOn with
  | _ n ih =>
      by_cases hn : n < 10
      · rw [digitsOf_lt hn]
        simp [natOfDigits, digitValue_digitChar hn]
      · rw [digitsOf_ge (by omega), natOfDigits_append, ih (n / 10) (by omega)]
        simp only [List.foldl_cons, List.foldl_nil, digitValue_digitChar (Nat.mod_lt n (by decide))]
        omega

theorem le_foldl_digits (ds : List Char) (m : Nat) :
    m ≤ ds.foldl (fun n c => 10 * n + digitValue c) m := by
  induction ds generalizing m with
  | nil => exact Nat.le_refl m
  | cons d ds ih =>
    calc
      m ≤ 10 * m + digitValue d := by omega
      _ ≤ ds.foldl (fun n c => 10 * n + digitValue c) (10 * m + digitValue d) := ih _

/-- Digits that fit into 64 bits are all collected in the significand. -/
theorem whole_fits (ds : List Char) (m k : Nat) (hall : ∀ c ∈ ds, isDigit c = true)
    (hfit : ds.foldl (fun n c => 10 * n + digitValue c) m < Nat.pow 2 64) :
    (NumberScan.whole ⟨m, 0, k⟩ ds).1 =
      ⟨ds.foldl (fun n c => 10 * n + digitValue c) m, 0, k + ds.length⟩ := by
  induction ds generalizing m k with
  | nil => rfl
  | cons d ds ih =>
    obtain ⟨hd, hds⟩ := List.forall_mem_cons.1 hall
    have hnext : 10 * m + digitValue d < Nat.pow 2 64 :=
      Nat.lt_of_le_of_lt (le_foldl_digits ds _) hfit
    simp only [NumberScan.whole, hd, if_true, hnext, true_and]
    rw [ih _ _ hds hfit]
    simp only [List.foldl_cons, List.length_cons, NumberScan.mk.injEq, true_and]
    omega

/-- The integers that a JSON text keeps: those of 64 bits, with or without a sign. -/
def Fits64 (i : Int) : Prop := -(Nat.pow 2 63 : Nat) ≤ i ∧ i < (Nat.pow 2 64 : Nat)

theorem unsignedNumber?_digitsOf (negative : Bool) (k : Nat) {n : Nat} (hn : n < Nat.pow 2 64) :
    unsignedNumber? negative k (digitsOf n) =
      some (some (integer negative n), k + (digitsOf n).length) := by
  obtain ⟨hall, d, t, ht, hz⟩ := wholeText_digitsOf n
  have hd : isDigit d = true := hall d (ht ▸ List.mem_cons_self)
  have htail : ∀ c ∈ t, isDigit c = true := fun c hc => hall c (ht ▸ List.mem_cons_of_mem _ hc)
  have hval : t.foldl (fun n c => 10 * n + digitValue c) (digitValue d) = n := by
    have := natOfDigits_digitsOf n
    rw [ht] at this
    simpa [natOfDigits] using this
  have hscan := whole_fits t (digitValue d) (k + 1) htail (hval ▸ hn)
  have := unsignedNumber?_whole negative k hd htail hz (stopsAt_nil _)
  rw [List.append_nil] at this
  rw [ht, this, hscan, hval]
  simp only [afterWhole, if_true, List.length_cons]
  congr 2
  omega

/-- An integer of 64 bits is read as itself. -/
theorem reading_integer {i : Int} (h : Fits64 i) :
    (Number.integer i).reading = some (.integer i) := by
  obtain ⟨hlow, hhigh⟩ := h
  have hpow : Nat.pow 2 64 = 18446744073709551616 ∧ Nat.pow 2 63 = 9223372036854775808 :=
    ⟨rfl, rfl⟩
  have hn : i.natAbs < Nat.pow 2 64 := by omega
  simp only [Number.reading, Number.render, digitsOfInt]
  by_cases hneg : i < 0
  · have hne : i.natAbs ≠ 0 := by omega
    have hle : i.natAbs ≤ Nat.pow 2 63 := by omega
    rw [if_pos hneg]
    simp only [number?, unsignedNumber?_digitsOf true 1 hn, integer, Bool.not_true,
      Bool.false_eq_true, if_false, hne, hle, if_true, Option.bind_some, Option.some.injEq,
      Number.integer.injEq]
    omega
  · have hplain : number? (digitsOf i.natAbs) = unsignedNumber? false 0 (digitsOf i.natAbs) := by
      obtain ⟨hall, d, t, ht, -⟩ := wholeText_digitsOf i.natAbs
      rw [ht, number?_digit (hall d (ht ▸ List.mem_cons_self))]
    rw [if_neg hneg, hplain, unsignedNumber?_digitsOf false 0 hn]
    simp only [integer, Bool.not_false, if_true, Option.bind_some, Option.some.injEq,
      Number.integer.injEq]
    omega

end ClientBuild.Json
