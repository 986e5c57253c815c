import ClientBuild.Proofs.Declaration.Brace
import ClientBuild.Proofs.Text.Bytes
import Mathlib.Order.Bounds.Basic

/-!
# The offset of the closing brace

The search for the brace that closes a block starts at any offset of bytes, be it within a character or
behind the text, and answers with an offset of bytes.  In the bytes of the text, where it starts, there is
either a part that closes all it opens with a closing brace behind it, or never more is closed than opened
(`closingBrace_cases`).  In the first case the brace is at the least offset by which more is closed than
opened (`isLeast_of_drop_eq`), and the search finds it.
-/

namespace ClientBuild

namespace Declaration

open Text (bytes byteSize)

/-! ## Braces among bytes -/

def openers (bs : List UInt8) : Nat := bs.count 0x7b

def closers (bs : List UInt8) : Nat := bs.count 0x7d

theorem isAscii_open : Text.IsAscii '{' 0x7b := ⟨rfl, by decide⟩

theorem isAscii_close : Text.IsAscii '}' 0x7d := ⟨rfl, by decide⟩

@[simp] theorem openers_append (s t : List UInt8) : openers (s ++ t) = openers s + openers t :=
  List.count_append

@[simp] theorem closers_append (s t : List UInt8) : closers (s ++ t) = closers s + closers t :=
  List.count_append

theorem rise_eq (s : List Char) : rise s = (openers (bytes s) : Int) - closers (bytes s) := by
  rw [openers, closers, Text.count_bytes isAscii_open, Text.count_bytes isAscii_close, rise]

/-- Is in no part at the beginning more closed than opened? -/
def NeverBelow (bs : List UInt8) : Prop := ∀ p, p <+: bs → closers p ≤ openers p

/-- Do the bytes close just what they open? -/
structure BalancedBytes (bs : List UInt8) : Prop where
  level : closers bs = openers bs
  above : NeverBelow bs

/-- The offsets from a first one on by which one brace more is closed than opened. -/
def overshoots (bs : List UInt8) (start : Nat) : Set Nat :=
  {i | start ≤ i ∧ i < bs.length ∧ closers (bs.extract start (i + 1)) = openers (bs.extract start (i + 1)) + 1}

/-- **A closing brace behind a balanced part is the first place where more is closed than opened.** -/
theorem isLeast_of_drop_eq {bs body rest : List UInt8} {start : Nat}
    (hdrop : bs.drop start = body ++ 0x7d :: rest) (hbody : BalancedBytes body) :
    IsLeast (overshoots bs start) (start + body.length) := by
  have hlength := congrArg List.length hdrop
  simp only [List.length_drop, List.length_append, List.length_cons] at hlength
  constructor
  · refine ⟨Nat.le_add_right _ _, by omega, ?_⟩
    have hslice : bs.extract start (start + body.length + 1) = body ++ [0x7d] := by
      rw [List.extract_eq_take_drop, hdrop, Nat.add_assoc, Nat.add_sub_cancel_left, List.take_length_add_append]
      rfl
    rw [hslice, closers_append, openers_append, hbody.level]
    rfl
  · rintro j ⟨hj, -, hmore⟩
    refine Nat.le_of_not_lt fun hlt => ?_
    have hslice : bs.extract start (j + 1) <+: body := by
      rw [List.extract_eq_take_drop, hdrop, List.take_append_of_le_length (by omega)]
      exact List.take_prefix _ _
    have := hbody.above _ hslice
    omega

/-! ## Where the search starts -/

theorem fromByte_of_le {start o : Nat} (h : start ≤ o) (s : List Char) : fromByte start o s = (o, s) := by
  cases s with
  | nil => rfl
  | cons c s => rw [fromByte, if_pos h]

/-- The search starts at the offset, or behind the rest of the character that the offset is in. -/
theorem exists_drop_bytes {start : Nat} : ∀ (s : List Char) {o : Nat}, o ≤ start →
    ∃ pad, (∀ b ∈ pad, 128 ≤ b.toNat) ∧ (bytes s).drop (start - o) = pad ++ bytes (fromByte start o s).2 ∧
      ((fromByte start o s).2 = [] ∨ (fromByte start o s).1 = start + pad.length)
  | [], o, _ => ⟨[], fun _ h => absurd h List.not_mem_nil, List.drop_nil, Or.inl rfl⟩
  | c :: s, o, ho => by
    rcases Nat.eq_or_lt_of_le ho with rfl | hlt
    · rw [fromByte_of_le (Nat.le_refl o), Nat.sub_self]
      exact ⟨[], fun _ h => absurd h List.not_mem_nil, rfl, Or.inr rfl⟩
    · rw [fromByte, if_neg (Nat.not_le_of_lt hlt), Text.bytes_cons, List.drop_append, String.length_utf8EncodeChar,
        Nat.sub_sub]
      have hsize := String.length_utf8EncodeChar c
      by_cases hnext : o + c.utf8Size ≤ start
      · rw [List.drop_eq_nil_of_le (by omega), List.nil_append]
        exact exists_drop_bytes s hnext
      · -- The offset is within the character.
        rw [fromByte_of_le (by omega), show start - (o + c.utf8Size) = 0 by omega, List.drop_zero]
        refine ⟨(String.utf8EncodeChar c).drop (start - o), fun b hb => ?_, rfl, Or.inr ?_⟩
        · exact Text.large_of_mem_drop (Nat.sub_pos_of_lt hlt) hb
        · rw [List.length_drop]
          omega

/-- Bytes outside of ASCII in front of a text have no braces. -/
theorem exists_prefix_of_prefix_pad {pad p : List UInt8} {s : List Char} (hpad : ∀ b ∈ pad, 128 ≤ b.toNat)
    (hp : p <+: pad ++ bytes s) :
    ∃ a, a <+: s ∧ (openers p : Int) - closers p = rise a := by
  have hfree {q : List UInt8} (hq : q <+: pad) : openers q = 0 ∧ closers q = 0 := by
    have hlarge (b : UInt8) (hb : b ∈ q) := hpad b (hq.subset hb)
    exact ⟨isAscii_open.count_eq_zero hlarge, isAscii_close.count_eq_zero hlarge⟩
  rcases Text.prefix_append_cases hp with hp | ⟨q, rfl, hq⟩
  · refine ⟨[], List.nil_prefix, ?_⟩
    rw [(hfree hp).1, (hfree hp).2]
    rfl
  · obtain ⟨a, ha, hcount⟩ := Text.exists_prefix_of_prefix_bytes hq
    refine ⟨a, ha, ?_⟩
    have hopen : openers q = a.count '{' := hcount _ _ isAscii_open
    have hclose : closers q = a.count '}' := hcount _ _ isAscii_close
    have hnone := hfree (List.prefix_refl pad)
    rw [openers_append, closers_append, hnone.1, hnone.2, hopen, hclose, rise]
    omega

theorem neverBelow_pad_append {pad : List UInt8} {s : List Char} (hpad : ∀ b ∈ pad, 128 ≤ b.toNat)
    (hs : ∀ a, a <+: s → 0 ≤ rise a) : NeverBelow (pad ++ bytes s) := by
  intro p hp
  obtain ⟨a, ha, hrise⟩ := exists_prefix_of_prefix_pad hpad hp
  have := hs a ha
  omega

theorem Balanced.pad_append {pad : List UInt8} {s : List Char} (hs : Balanced s)
    (hpad : ∀ b ∈ pad, 128 ≤ b.toNat) : BalancedBytes (pad ++ bytes s) := by
  refine ⟨?_, neverBelow_pad_append hpad fun a ha => by simpa using hs.2 a ha⟩
  have hlevel : rise s = 0 := by simpa using hs.1
  rw [closers_append, openers_append, openers, closers, isAscii_close.count_eq_zero hpad, isAscii_open.count_eq_zero hpad]
  rw [rise_eq] at hlevel
  omega

/-! ## What the search finds -/

/-- **The search tells whether more is ever closed than opened**, and where. -/
theorem closingBrace_cases (text : List Char) (start : Nat) :
    (∃ body rest, (bytes text).drop start = body ++ 0x7d :: rest ∧ BalancedBytes body ∧
      closingBrace text start = .ok (start + body.length)) ∨
    (NeverBelow ((bytes text).drop start) ∧ closingBrace text start = .error (.unbalancedBraces start)) := by
  obtain ⟨pad, hpad, hdrop, hoffset⟩ := exists_drop_bytes text (Nat.zero_le start)
  rw [Nat.sub_zero] at hdrop
  rw [hdrop, closingBrace]
  generalize fromByte start 0 text = found at hdrop hoffset
  obtain ⟨offset, s⟩ := found
  dsimp only at hoffset ⊢
  cases htake : takeBraced? 0 s with
  | some p =>
    left
    obtain ⟨body, rest⟩ := p
    obtain ⟨rfl, hbody⟩ := takeBraced?_eq_some_iff.1 htake
    have hoffset := hoffset.resolve_left (by simp)
    refine ⟨pad ++ bytes body, bytes rest, ?_, Balanced.pad_append hbody hpad, ?_⟩
    · rw [Text.bytes_append, Text.bytes_cons, isAscii_close.utf8EncodeChar_eq, List.append_assoc]
      rfl
    · dsimp only
      rw [hoffset, List.length_append, Text.length_bytes, Nat.add_assoc]
  | none =>
    right
    refine ⟨neverBelow_pad_append hpad ?_, rfl⟩
    simpa using takeBraced?_eq_none_iff.1 htake

-- Behind the first byte of a character the search goes on with the next character.
example : closingBrace ['é', '}'] 1 = .ok 2 := rfl

theorem closingBrace_eq_ok_iff {text : List Char} {start i : Nat} :
    closingBrace text start = .ok i ↔ IsLeast (overshoots (bytes text) start) i := by
  rcases closingBrace_cases text start with ⟨body, rest, hdrop, hbody, hfound⟩ | ⟨hnever, hfound⟩
  · have hleast := isLeast_of_drop_eq hdrop hbody
    rw [hfound]
    constructor
    · rintro h
      cases h
      exact hleast
    · intro h
      rw [hleast.unique h]
  · rw [hfound]
    refine ⟨fun h => (nomatch h), fun h => ?_⟩
    -- What is read up to the offset begins the rest of the text.
    obtain ⟨-, -, hmore⟩ := h.1
    have := hnever _ (List.take_prefix (i + 1 - start) _)
    rw [List.extract_eq_take_drop] at hmore
    omega

theorem closingBrace_eq_error_iff {text : List Char} {start : Nat} {f : Failure} :
    closingBrace text start = .error f ↔ f = .unbalancedBraces start ∧ NeverBelow ((bytes text).drop start) := by
  rcases closingBrace_cases text start with ⟨body, rest, hdrop, hbody, hfound⟩ | ⟨hnever, hfound⟩
  · rw [hfound]
    refine ⟨fun h => (nomatch h), fun ⟨_, h⟩ => ?_⟩
    have := h (body ++ [0x7d]) ⟨rest, by rw [hdrop, List.append_assoc]; rfl⟩
    rw [closers_append, openers_append, hbody.level] at this
    exact absurd this (Nat.not_le_of_lt (Nat.lt_succ_self _))
  · rw [hfound]
    constructor
    · intro h
      cases h
      exact ⟨rfl, hnever⟩
    · rintro ⟨rfl, _⟩
      rfl

/-- What is found is a closing brace, and what is in front of it closes just what it opens. -/
theorem balancedBytes_of_closingBrace {text : List Char} {start i : Nat} (h : closingBrace text start = .ok i) :
    (bytes text)[i]? = some 0x7d ∧ BalancedBytes ((bytes text).extract start i) := by
  rcases closingBrace_cases text start with ⟨body, rest, hdrop, hbody, hfound⟩ | ⟨_, hfound⟩
  · cases h.symm.trans hfound
    constructor
    · rw [← List.getElem?_drop, hdrop, List.getElem?_append_right (Nat.le_refl _), Nat.sub_self]
      rfl
    · rwa [List.extract_eq_take_drop, hdrop, Nat.add_sub_cancel_left, List.take_left]
  · cases h.symm.trans hfound

/-- The brace behind a balanced text closes the block that the text stands in. -/
theorem Balanced.closingBrace {s : List Char} (hs : Balanced s) (a b : List Char) :
    Declaration.closingBrace (a ++ s ++ '}' :: b) (byteSize a) = .ok (byteSize a + byteSize s) := by
  have hdrop : (bytes (a ++ s ++ '}' :: b)).drop (byteSize a) = bytes s ++ 0x7d :: bytes b := by
    rw [List.append_assoc, Text.bytes_append, Text.bytes_append, ← Text.length_bytes, List.drop_left,
      Text.bytes_cons, isAscii_close.utf8EncodeChar_eq]
    rfl
  have hbody : BalancedBytes (bytes s) := hs.pad_append fun _ h => absurd h List.not_mem_nil
  rw [closingBrace_eq_ok_iff, ← Text.length_bytes s]
  exact isLeast_of_drop_eq hdrop hbody

/-- **The closing brace of a block.**  It is at the least offset by which one brace more is closed than
opened, with a part in front that closes just what it opens; the search fails, in one way, exactly where
never more is closed than opened; and behind a balanced text it finds the brace that follows. -/
theorem closingBrace_spec (text : List Char) (start : Nat) :
    (∀ i, closingBrace text start = .ok i ↔ IsLeast (overshoots (bytes text) start) i) ∧
    (∀ i, closingBrace text start = .ok i →
      (bytes text)[i]? = some 0x7d ∧ BalancedBytes ((bytes text).extract start i)) ∧
    (∀ f, closingBrace text start = .error f ↔
      f = .unbalancedBraces start ∧ NeverBelow ((bytes text).drop start)) ∧
    (∀ a inner b, text = a ++ inner ++ '}' :: b → start = byteSize a → Balanced inner →
      closingBrace text start = .ok (byteSize a + byteSize inner)) := by
  refine ⟨fun i => closingBrace_eq_ok_iff, fun i => balancedBytes_of_closingBrace,
    fun f => closingBrace_eq_error_iff, ?_⟩
  rintro a inner b rfl rfl hinner
  exact hinner.closingBrace a b

/-- The block that the search is documented with. -/
theorem closingBrace_spec_nested :
    Balanced " b: \x7b c: C; \x7d; ".toList ∧ closingBrace "a: \x7b b: \x7b c: C; \x7d; \x7d; d".toList 4 = .ok 19 := by
  have hinner : Balanced " b: \x7b c: C; \x7d; ".toList :=
    Balanced.block (a := " b: ".toList) (b := " c: C; ".toList) (s := "; ".toList) ⟨by decide, by decide⟩
      ⟨by decide, by decide⟩ (BraceFree.balanced ⟨by decide, by decide⟩)
  exact ⟨hinner, (closingBrace_spec _ 4).2.2.2 "a: \x7b".toList _ "; d".toList rfl rfl hinner⟩

end Declaration

end ClientBuild
