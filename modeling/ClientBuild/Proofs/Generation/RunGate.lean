import ClientBuild.Proofs.Generation.Calls

/-!
# The run gate keeps calls apart

In whatever order the calls take their steps, one of them holds the gate exactly when it is not idle,
and it is pending exactly when a trigger was coalesced since the holder set it for its run
(`Calls.Ordered`).  Both are kept by every move, so they hold behind every schedule, and what a call
does at the end of a run can be read off the log: it opens the gate, or it starts one more run
(`Calls.gate_safe`).
-/

namespace ClientBuild

/-! ## What the log tells -/

namespace Event

/-- Did the caller set the gate for a run of its own? -/
def sets (i : Nat) (e : Event) : Bool :=
  e.caller == i && (e.move == .acquired || e.move == .repeated)

/-- Did a run of the caller start? -/
def starts (i : Nat) (e : Event) : Bool := e.caller == i && e.move == .started

end Event

/-- A trigger was coalesced since the last event of a kind. -/
def CoalescedSince (p : Event → Bool) (log : List Event) : Prop :=
  ∃ e ∈ log.takeWhile fun e => !p e, e.move = .coalesced

section CoalescedSince

variable {p : Event → Bool} {e : Event} {log : List Event}

theorem not_coalescedSince_cons (h : p e = true) : ¬ CoalescedSince p (e :: log) := by
  rintro ⟨_, he, _⟩
  rw [List.takeWhile_cons, h] at he
  cases he

theorem coalescedSince_cons (h : p e = false) :
    CoalescedSince p (e :: log) ↔ e.move = .coalesced ∨ CoalescedSince p log := by
  simp [CoalescedSince, h]

end CoalescedSince

/-! ## Who holds the gate -/

/-- A move acquires the gate, or gives it back, or keeps it, or is one of a caller that does not hold
it. -/
theorem Moves.holds_cases {m : Move} {k k' : Call} {g g' : Gate} (h : Moves m k g k' g') :
    (¬ k.Holds ∧ k'.Holds ∧ m = .acquired ∧ g = .idle ∧ g' = .running) ∨
      (k.Holds ∧ ¬ k'.Holds ∧ (m = .opened ∨ m = .reset) ∧ g' = .idle) ∨
      (k.Holds ∧ k'.Holds ∧ (m = .repeated ∧ g' = .running ∨
        (m = .started ∨ m = .reported ∨ m = .failed ∨ m = .kept) ∧ g' = g)) ∨
      (¬ k.Holds ∧ ¬ k'.Holds ∧ (m = .disabled ∧ g' = g ∨
        m = .coalesced ∧ g ≠ .idle ∧ g' = .pending)) := by
  cases h with
  | disabled => exact .inr (.inr (.inr ⟨id, id, .inl ⟨rfl, rfl⟩⟩))
  | acquired => exact .inl ⟨id, trivial, rfl, rfl, rfl⟩
  | coalesced hg => exact .inr (.inr (.inr ⟨id, id, .inr ⟨rfl, hg, rfl⟩⟩))
  | opened => exact .inr (.inl ⟨trivial, id, .inl rfl, rfl⟩)
  | reset => exact .inr (.inl ⟨trivial, id, .inr rfl, rfl⟩)
  | repeated => exact .inr (.inr (.inl ⟨trivial, trivial, .inl ⟨rfl, rfl⟩⟩))
  | started => exact .inr (.inr (.inl ⟨trivial, trivial, .inr ⟨by simp, rfl⟩⟩))
  | reported => exact .inr (.inr (.inl ⟨trivial, trivial, .inr ⟨by simp, rfl⟩⟩))
  | failed => exact .inr (.inr (.inl ⟨trivial, trivial, .inr ⟨by simp, rfl⟩⟩))
  | kept _ => exact .inr (.inr (.inl ⟨trivial, trivial, .inr ⟨by simp, rfl⟩⟩))

/-- A caller that does not hold the gate moves only once. -/
theorem Moves.eq_outside {m : Move} {k k' : Call} {g g' : Gate} (h : Moves m k g k' g')
    (hk : ¬ k.Holds) : k = .outside := by
  cases h with
  | disabled => rfl
  | acquired => rfl
  | coalesced _ => rfl
  | started => exact absurd trivial hk
  | reported => exact absurd trivial hk
  | failed => exact absurd trivial hk
  | opened => exact absurd trivial hk
  | kept _ => exact absurd trivial hk
  | repeated => exact absurd trivial hk
  | reset => exact absurd trivial hk

theorem Moves.ne_outside {m : Move} {k k' : Call} {g g' : Gate} (h : Moves m k g k' g') :
    k' ≠ .outside := by
  rintro rfl
  cases h

theorem Call.holds_succeeded {k : Call} {report : Report} (h : k = .succeeded report) :
    k.Holds := by
  rw [h]
  trivial

/-- A call is completed by the step that opens the gate. -/
theorem Moves.of_completed {m : Move} {k : Call} {g g' : Gate} {report : Report}
    (h : Moves m k g (.ended (.ok (.completed report))) g') :
    k = .succeeded report ∧ g = .running ∧ g' = .idle := by
  cases h
  exact ⟨rfl, rfl, rfl⟩

/-- How the last run of the call ended, if the gate was not given back since. -/
def Call.settled? : Call → Option (Except Failure Report)
  | succeeded report => some (.ok report)
  | failed e => some (.error e)
  | outside | starting | running | repeating | ended _ => none

theorem Call.exists_succeeded {k : Call} (h : k.settled?.any (·.isOk) = true) :
    ∃ report, k = .succeeded report := by
  cases k with
  | succeeded report => exact ⟨report, rfl⟩
  | _ => cases h

theorem Call.exists_failed {k : Call} (h : k.settled?.any (!·.isOk) = true) :
    ∃ e, k = .failed e := by
  cases k with
  | failed e => exact ⟨e, rfl⟩
  | _ => cases h

/-- Did a run of the call start since the call set the gate last? -/
def Call.HasRun : Call → Prop
  | running | succeeded _ | failed _ => True
  | outside | starting | repeating | ended _ => False

theorem Moves.hasRun_cases {m : Move} {k k' : Call} {g g' : Gate} (h : Moves m k g k' g')
    (hk : k'.HasRun) : m = .started ∨ k.HasRun ∧ (m = .reported ∨ m = .failed) := by
  cases h with
  | started => exact .inl rfl
  | reported => exact .inr ⟨trivial, .inl rfl⟩
  | failed => exact .inr ⟨trivial, .inr rfl⟩
  | disabled => exact hk.elim
  | acquired => exact hk.elim
  | coalesced _ => exact hk.elim
  | opened => exact hk.elim
  | kept _ => exact hk.elim
  | repeated => exact hk.elim
  | reset => exact hk.elim

namespace Calls

variable {s : Calls} {i j : Nat} {m : Move} {k : Call} {session : Session} {h : Option Nat}

/-- The gate is held by that caller only, or by none and idle. -/
structure HeldBy (s : Calls) (h : Option Nat) : Prop where
  holds_iff : ∀ i, (s.call i).Holds ↔ h = some i
  idle_iff : s.gate = .idle ↔ h = none

theorem HeldBy.eq (hs : s.HeldBy h) (hi : (s.call i).Holds) (hj : (s.call j).Holds) : i = j := by
  have heq := ((hs.holds_iff i).1 hi).symm.trans ((hs.holds_iff j).1 hj)
  exact Option.some.inj heq

theorem HeldBy.gate_ne (hs : s.HeldBy h) (hi : (s.call i).Holds) : s.gate ≠ .idle := by
  intro hidle
  have hnone := hs.idle_iff.1 hidle
  rw [(hs.holds_iff i).1 hi] at hnone
  cases hnone

/-- The caller acquired the gate and has neither opened nor reset it. -/
def Inside (log : List Event) (i : Nat) : Prop :=
  ⟨i, .acquired⟩ ∈ log ∧ ⟨i, .opened⟩ ∉ log ∧ ⟨i, .reset⟩ ∉ log

/-- One caller holds the gate, or none and it is idle; and it is pending when a trigger was coalesced
since its holder set it. -/
structure Ordered (s : Calls) : Prop where
  held : ∃ h, s.HeldBy h
  holds_iff_inside : ∀ i, (s.call i).Holds ↔ Inside s.log i
  not_mem_of_outside : ∀ i, s.call i = .outside → ∀ m, ⟨i, m⟩ ∉ s.log
  pending_iff : ∀ i, (s.call i).Holds →
    (s.gate = .pending ↔ CoalescedSince (Event.sets i) s.log)
  /-- A trigger since its run started is one since it set the gate. -/
  of_starts : ∀ i, (s.call i).HasRun → CoalescedSince (Event.starts i) s.log →
    CoalescedSince (Event.sets i) s.log

/-- Behind a move, the gate is held by `h'` if `h'` is right about the caller of the move and about
the gate and `h` was right about the others. -/
theorem HeldBy.advance_of {h' : Option Nat} (hs : s.HeldBy h) (hself : k.Holds ↔ h' = some i)
    (hothers : ∀ j, j ≠ i → (h = some j ↔ h' = some j))
    (hidle : session.gate = .idle ↔ h' = none) : (s.advance i m k session).HeldBy h' := by
  refine ⟨fun j => ?_, hidle⟩
  by_cases hj : j = i
  · subst hj
    rw [call_advance_self]
    exact hself
  · rw [call_advance_of_ne hj]
    exact (hs.holds_iff j).trans (hothers j hj)

/-- Whoever holds the gate, behind a move of any caller it is held by one at most. -/
theorem HeldBy.advance (hs : s.HeldBy h) (hmoves : Moves m (s.call i) s.gate k session.gate) :
    ∃ h', (s.advance i m k session).HeldBy h' := by
  have hi := hs.holds_iff i
  rcases hmoves.holds_cases with ⟨_, hin, _, hidle, hgate⟩ | ⟨hin, hout, _, hgate⟩ |
    ⟨hin, hin', hm⟩ | ⟨hout, hout', hm⟩
  · have hnone : h = none := hs.idle_iff.1 hidle
    refine ⟨some i, hs.advance_of (iff_of_true hin rfl) (fun j hj => ?_) ?_⟩
    · rw [hnone]
      exact iff_of_false nofun fun heq => hj (Option.some.inj heq).symm
    · rw [hgate]
      exact iff_of_false nofun nofun
  · have hsome : h = some i := hi.1 hin
    refine ⟨none, hs.advance_of (iff_of_false hout nofun) (fun j hj => ?_)
      (iff_of_true hgate rfl)⟩
    rw [hsome]
    exact iff_of_false (fun heq => hj (Option.some.inj heq).symm) nofun
  · have hsome : h = some i := hi.1 hin
    refine ⟨h, hs.advance_of (iff_of_true hin' hsome) (fun _ _ => Iff.rfl) ?_⟩
    rcases hm with ⟨_, hgate⟩ | ⟨_, hgate⟩
    · rw [hgate, hsome]
      exact iff_of_false nofun nofun
    · rw [hgate]
      exact hs.idle_iff
  · refine ⟨h, hs.advance_of (iff_of_false hout' fun heq => hout (hi.2 heq))
      (fun _ _ => Iff.rfl) ?_⟩
    rcases hm with ⟨_, hgate⟩ | ⟨_, hbusy, hgate⟩
    · rw [hgate]
      exact hs.idle_iff
    · rw [hgate]
      exact iff_of_false nofun fun hnone => hbusy (hs.idle_iff.2 hnone)

theorem inside_cons_of_ne {log : List Event} (h : j ≠ i) :
    Inside (⟨i, m⟩ :: log) j ↔ Inside log j := by
  simp [Inside, h]

theorem inside_cons_self {log : List Event} :
    Inside (⟨i, m⟩ :: log) i ↔ (m = .acquired ∨ ⟨i, .acquired⟩ ∈ log) ∧
      (m ≠ .opened ∧ ⟨i, .opened⟩ ∉ log) ∧ m ≠ .reset ∧ ⟨i, .reset⟩ ∉ log := by
  simp [Inside, eq_comm]

theorem Ordered.inside_advance (hs : s.Ordered)
    (hmoves : Moves m (s.call i) s.gate k session.gate) (j : Nat) :
    ((s.advance i m k session).call j).Holds ↔ Inside (⟨i, m⟩ :: s.log) j := by
  by_cases hji : j = i
  · subst hji
    have hbefore := hs.holds_iff_inside j
    have hnone : ¬ (s.call j).Holds → ∀ m, ⟨j, m⟩ ∉ s.log :=
      fun hout => hs.not_mem_of_outside j (hmoves.eq_outside hout)
    rw [call_advance_self, inside_cons_self]
    rcases hmoves.holds_cases with ⟨hout, hin, rfl, _⟩ | ⟨_, hout, rfl | rfl, _⟩ |
      ⟨hin, hin', hm⟩ | ⟨hout, hout', hm⟩
    · exact iff_of_true hin ⟨.inl rfl, ⟨nofun, hnone hout _⟩, nofun, hnone hout _⟩
    · exact iff_of_false hout fun h => h.2.1.1 rfl
    · exact iff_of_false hout fun h => h.2.2.1 rfl
    · obtain ⟨hacquired, hopened, hreset⟩ := hbefore.1 hin
      have hm : m ≠ .opened ∧ m ≠ .reset := by grind
      exact iff_of_true hin' ⟨.inr hacquired, ⟨hm.1, hopened⟩, hm.2, hreset⟩
    · have hm : m ≠ .acquired := by grind
      exact iff_of_false hout' fun h => h.1.elim hm (hnone hout _)
  · rw [call_advance_of_ne hji, inside_cons_of_ne hji]
    exact hs.holds_iff_inside j

theorem Ordered.not_mem_advance (hs : s.Ordered)
    (hmoves : Moves m (s.call i) s.gate k session.gate)
    (hj : (s.advance i m k session).call j = .outside) (m' : Move) :
    ⟨j, m'⟩ ∉ (⟨i, m⟩ :: s.log : List Event) := by
  by_cases hji : j = i
  · subst hji
    rw [call_advance_self] at hj
    exact absurd hj hmoves.ne_outside
  · rw [call_advance_of_ne hji] at hj
    simp [hji, hs.not_mem_of_outside j hj m']

/-- Behind a move, the gate is pending when a trigger was coalesced since its holder set it. -/
theorem Ordered.pending_advance (hs : s.Ordered)
    (hmoves : Moves m (s.call i) s.gate k session.gate)
    (hj : ((s.advance i m k session).call j).Holds) :
    session.gate = .pending ↔ CoalescedSince (Event.sets j) (⟨i, m⟩ :: s.log) := by
  obtain ⟨h, hheld⟩ := hs.held
  by_cases hji : j = i
  · subst hji
    rw [call_advance_self] at hj
    rcases hmoves.holds_cases with ⟨_, _, rfl, _, hgate⟩ | ⟨_, hout, _⟩ |
      ⟨hin, _, ⟨rfl, hgate⟩ | ⟨hm, hgate⟩⟩ | ⟨_, hout, _⟩
    · rw [hgate]
      exact iff_of_false nofun (not_coalescedSince_cons (by simp [Event.sets]))
    · exact absurd hj hout
    · rw [hgate]
      exact iff_of_false nofun (not_coalescedSince_cons (by simp [Event.sets]))
    · have hsets : Event.sets j ⟨j, m⟩ = false := by grind [Event.sets]
      have hcoalesced : m ≠ .coalesced := by grind
      rw [hgate, coalescedSince_cons hsets, or_iff_right hcoalesced]
      exact hs.pending_iff j hin
    · exact absurd hj hout
  · rw [call_advance_of_ne hji] at hj
    -- The caller `j` holds the gate, so that the move is of one that does not.
    have hout : ¬ (s.call i).Holds := fun hin => hji (hheld.eq hj hin)
    have hbusy : s.gate ≠ .idle := hheld.gate_ne hj
    rw [coalescedSince_cons (by simp [Event.sets, Ne.symm hji])]
    rcases hmoves.holds_cases with ⟨_, _, _, hidle, _⟩ | ⟨hin, _⟩ | ⟨hin, _⟩ |
      ⟨_, _, ⟨rfl, hgate⟩ | ⟨rfl, _, hgate⟩⟩
    · exact absurd hidle hbusy
    · exact absurd hin hout
    · exact absurd hin hout
    · rw [hgate, or_iff_right nofun]
      exact hs.pending_iff j hj
    · exact iff_of_true hgate (.inl rfl)

theorem Ordered.of_starts_advance (hs : s.Ordered)
    (hmoves : Moves m (s.call i) s.gate k session.gate)
    (hj : ((s.advance i m k session).call j).HasRun)
    (hsince : CoalescedSince (Event.starts j) (⟨i, m⟩ :: s.log)) :
    CoalescedSince (Event.sets j) (⟨i, m⟩ :: s.log) := by
  by_cases hji : j = i
  · subst hji
    rw [call_advance_self] at hj
    rcases hmoves.hasRun_cases hj with rfl | ⟨hrun, hm⟩
    · exact absurd hsince (not_coalescedSince_cons (by simp [Event.starts]))
    · have hstarts : Event.starts j ⟨j, m⟩ = false := by grind [Event.starts]
      have hsets : Event.sets j ⟨j, m⟩ = false := by grind [Event.sets]
      rw [coalescedSince_cons hstarts] at hsince
      rw [coalescedSince_cons hsets]
      exact hsince.imp_right (hs.of_starts j hrun)
  · rw [call_advance_of_ne hji] at hj
    rw [coalescedSince_cons (by simp [Event.starts, Ne.symm hji])] at hsince
    rw [coalescedSince_cons (by simp [Event.sets, Ne.symm hji])]
    exact hsince.imp_right (hs.of_starts j hj)

/-- **A step of any caller keeps the calls ordered.** -/
theorem Ordered.step (hs : s.Ordered) (i : Nat) (c : Conditions) : (s.step i c).Ordered := by
  rcases step_cases s i c with ⟨_, _, heq⟩ | ⟨m, k, session, heq, hmoves⟩
  · rw [heq]
    exact hs
  · rw [heq]
    obtain ⟨h, hheld⟩ := hs.held
    exact ⟨hheld.advance hmoves, hs.inside_advance hmoves, fun j hj => hs.not_mem_advance hmoves hj,
      fun j hj => hs.pending_advance hmoves hj, fun j hj => hs.of_starts_advance hmoves hj⟩

theorem Ordered.run (hs : s.Ordered) (schedule : List (Nat × Conditions)) :
    (s.run schedule).Ordered := run_induction (fun _ i c hs => hs.step i c) hs schedule

theorem ordered_start (start : Session) (h : start.gate = .idle) :
    ({ session := start } : Calls).Ordered where
  held := ⟨none, fun _ => iff_of_false id nofun, iff_of_true h rfl⟩
  holds_iff_inside := fun _ => iff_of_false id fun h => nomatch h.1
  not_mem_of_outside := fun _ _ _ => nofun
  pending_iff := fun _ hi => hi.elim
  of_starts := fun _ hi => hi.elim

/-- The gate is idle exactly when no caller is inside. -/
theorem Ordered.idle_iff (hs : s.Ordered) : s.gate = .idle ↔ ∀ i, ¬ Inside s.log i := by
  obtain ⟨h, hheld⟩ := hs.held
  constructor
  · intro hidle i hi
    exact hheld.gate_ne ((hs.holds_iff_inside i).2 hi) hidle
  · intro hnone
    cases h with
    | none => exact hheld.idle_iff.2 rfl
    | some i => exact absurd ((hs.holds_iff_inside i).1 ((hheld.holds_iff i).2 rfl)) (hnone i)

/-! ## Behind a run that reported -/

/-- How many runs of the caller started. -/
def started (s : Calls) (i : Nat) : Nat := s.log.countP (Event.starts i)

/-- How many steps of a schedule are of the caller. -/
def turns (i : Nat) (schedule : List (Nat × Conditions)) : Nat :=
  schedule.countP fun x => x.1 == i

/-- The caller, of whose runs `n` started, is that many steps away from one more run. -/
def Due (s : Calls) (i n : Nat) : Nat → Prop
  | 0 => s.call i = .running ∧ s.started i = n + 1
  | 1 => s.call i = .starting ∧ s.started i = n
  | 2 => s.call i = .repeating ∧ s.started i = n
  | 3 => (∃ report, s.call i = .succeeded report) ∧ s.gate = .pending ∧ s.started i = n
  | _ => False

variable {c : Conditions} {n d : Nat}

theorem started_step_of_ne (h : j ≠ i) : (s.step i c).started j = s.started j := by
  rcases step_cases s i c with ⟨_, _, heq⟩ | ⟨m, k, session, heq, _⟩
  · rw [heq]
  · rw [heq, started, log_advance]
    exact List.countP_cons_of_neg (by simp [Event.starts, Ne.symm h])

/-- While a caller holds the gate, the others leave it pending. -/
theorem Ordered.gate_step_of_ne (hs : s.Ordered) (hj : (s.call j).Holds) (h : j ≠ i)
    (hpending : s.gate = .pending) : (s.step i c).gate = .pending := by
  rcases step_cases s i c with ⟨_, _, heq⟩ | ⟨m, k, session, heq, hmoves⟩
  · rw [heq]
    exact hpending
  · rw [heq, gate_advance]
    obtain ⟨_, hheld⟩ := hs.held
    have hout : ¬ (s.call i).Holds := fun hin => h (hheld.eq hj hin)
    rcases hmoves.holds_cases with ⟨_, _, _, hidle, _⟩ | ⟨hin, _⟩ | ⟨hin, _⟩ |
      ⟨_, _, ⟨_, hgate⟩ | ⟨_, _, hgate⟩⟩
    · exact absurd hidle (hheld.gate_ne hj)
    · exact absurd hin hout
    · exact absurd hin hout
    · exact hgate.trans hpending
    · exact hgate

theorem Due.step_of_ne (hs : s.Ordered) (hdue : s.Due j n d) (h : j ≠ i) :
    (s.step i c).Due j n d := by
  have hcall := call_step_of_ne (s := s) (c := c) h
  have hstarted := started_step_of_ne (s := s) (c := c) h
  match d, hdue with
  | 0, ⟨hrunning, hn⟩ => exact ⟨hcall.trans hrunning, hstarted.trans hn⟩
  | 1, ⟨hstarting, hn⟩ => exact ⟨hcall.trans hstarting, hstarted.trans hn⟩
  | 2, ⟨hrepeating, hn⟩ => exact ⟨hcall.trans hrepeating, hstarted.trans hn⟩
  | 3, ⟨⟨report, hreport⟩, hpending, hn⟩ =>
    exact ⟨⟨report, hcall.trans hreport⟩,
      hs.gate_step_of_ne (Call.holds_succeeded hreport) h hpending, hstarted.trans hn⟩

theorem Due.step_self (hdue : s.Due i n (d + 1)) : (s.step i c).Due i n d := by
  match d, hdue with
  | 0, ⟨hstarting, hn⟩ =>
    rw [step_starting hstarting]
    refine ⟨call_advance_self, ?_⟩
    rw [started, log_advance, List.countP_cons_of_pos (by simp [Event.starts])]
    exact congrArg (· + 1) hn
  | 1, ⟨hrepeating, hn⟩ =>
    rw [step_repeating hrepeating]
    refine ⟨call_advance_self, ?_⟩
    rw [started, log_advance, List.countP_cons_of_neg (by simp [Event.starts])]
    exact hn
  | 2, ⟨⟨report, hreport⟩, hpending, hn⟩ =>
    rw [step_kept hreport hpending]
    refine ⟨call_advance_self, ?_⟩
    rw [started, log_advance, List.countP_cons_of_neg (by simp [Event.starts])]
    exact hn

/-- Whatever steps the others take meanwhile, a caller makes its way to its next run. -/
theorem Due.run (hs : s.Ordered) (schedule : List (Nat × Conditions))
    (hdue : s.Due i n (turns i schedule)) : (s.run schedule).Due i n 0 := by
  induction schedule generalizing s with
  | nil => exact hdue
  | cons x schedule ih =>
    by_cases hx : x.1 = i
    · refine ih (hs.step x.1 x.2) ?_
      subst hx
      rw [turns, List.countP_cons_of_pos (by simp)] at hdue
      exact hdue.step_self
    · refine ih (hs.step x.1 x.2) (Due.step_of_ne hs ?_ (Ne.symm hx))
      rw [turns, List.countP_cons_of_neg (by simpa using hx)] at hdue
      exact hdue

/-- A caller whose call is over starts no more runs. -/
theorem run_ended {r : Except Failure Outcome} (h : s.call i = .ended r)
    (schedule : List (Nat × Conditions)) :
    (s.run schedule).call i = .ended r ∧ (s.run schedule).started i = s.started i := by
  induction schedule generalizing s with
  | nil => exact ⟨h, rfl⟩
  | cons x schedule ih =>
    rw [run_cons]
    by_cases hx : i = x.1
    · rw [← hx, step_ended h]
      exact ih h
    · obtain ⟨hover, hstarted⟩ := ih ((call_step_of_ne hx).trans h)
      exact ⟨hover, hstarted.trans (started_step_of_ne hx)⟩

/-- A call that is completed in a step opened the gate, for which no trigger may have been coalesced
since its run started. -/
theorem Ordered.completed (hs : s.Ordered) {report : Report}
    (hbefore : s.call i ≠ .ended (.ok (.completed report)))
    (h : (s.step i c).call i = .ended (.ok (.completed report))) :
    (s.step i c).gate = .idle ∧ ¬ CoalescedSince (Event.starts i) s.log := by
  rcases step_cases s i c with ⟨_, _, heq⟩ | ⟨m, k, session, heq, hmoves⟩
  · rw [heq] at h
    exact absurd h hbefore
  · rw [heq, call_advance_self] at h
    rw [heq, gate_advance]
    obtain ⟨hreport, hrunning, hgate⟩ := (h ▸ hmoves).of_completed
    refine ⟨hgate, fun hsince => ?_⟩
    have hpending := (hs.pending_iff i (Call.holds_succeeded hreport)).2
      (hs.of_starts i (by rw [hreport]; trivial) hsince)
    rw [hrunning] at hpending
    cases hpending

/-! ## The gate -/

/-- **The gate keeps calls apart.**  In whatever order any number of calls take their steps: at most
one of them is inside, so that at most one run is under way, and the gate is idle exactly when none
is.  A call is completed only when no trigger was coalesced since its last run started.  Behind a run
that reported, the caller starts exactly one more run if a trigger was coalesced since it set the
gate for that run, whatever steps the others take meanwhile, and none if there was no such trigger. -/
theorem gate_safe (start : Session) (hidle : start.gate = .idle)
    (schedule : List (Nat × Conditions)) :
    let s := ({ session := start } : Calls).run schedule
    (∀ i j, Inside s.log i → Inside s.log j → i = j) ∧
    (∀ i j, s.call i = .running → s.call j = .running → i = j) ∧
    (s.gate = .idle ↔ ∀ i, ¬ Inside s.log i) ∧
    (∀ i c report, s.call i ≠ .ended (.ok (.completed report)) →
      (s.step i c).call i = .ended (.ok (.completed report)) →
      (s.step i c).gate = .idle ∧ ¬ CoalescedSince (Event.starts i) s.log) ∧
    ∀ i report, s.call i = .succeeded report →
      (CoalescedSince (Event.sets i) s.log → ∀ more, turns i more = 3 →
        (s.run more).call i = .running ∧ (s.run more).started i = s.started i + 1) ∧
      (¬ CoalescedSince (Event.sets i) s.log → ∀ c more, (s.step i c).gate = .idle ∧
        ((s.step i c).run more).call i = .ended (.ok (.completed report)) ∧
        ((s.step i c).run more).started i = s.started i) := by
  intro s
  have hs : s.Ordered := (ordered_start start hidle).run schedule
  obtain ⟨h, hheld⟩ := hs.held
  refine ⟨fun i j hi hj => ?_, fun i j hi hj => ?_, hs.idle_iff, fun i c report => hs.completed,
    fun i report hreport => ⟨fun hsince more hmore => ?_, fun hsince c more => ?_⟩⟩
  · exact hheld.eq ((hs.holds_iff_inside i).2 hi) ((hs.holds_iff_inside j).2 hj)
  · exact hheld.eq (by rw [hi]; trivial) (by rw [hj]; trivial)
  · have hpending : s.gate = .pending :=
      (hs.pending_iff i (Call.holds_succeeded hreport)).2 hsince
    have hdue : s.Due i (s.started i) 3 := ⟨⟨report, hreport⟩, hpending, rfl⟩
    rw [← hmore] at hdue
    exact hdue.run hs more
  · have hholds := Call.holds_succeeded hreport
    have hrunning : s.gate = .running := by
      cases hgate : s.gate with
      | idle => exact absurd hgate (hheld.gate_ne hholds)
      | running => rfl
      | pending => exact absurd ((hs.pending_iff i hholds).1 hgate) hsince
    rw [step_opened hreport hrunning]
    obtain ⟨hover, hstarted⟩ := run_ended call_advance_self more
    refine ⟨rfl, hover, hstarted.trans ?_⟩
    rw [started, log_advance]
    exact List.countP_cons_of_neg (by simp [Event.starts])

/-- What a run finds when no backend answers. -/
def quiet : Conditions where
  toEnvironment := Generator.standard.answering none

/-- A trigger arrived during the first run of another, which has reported. -/
def overlapped : Calls :=
  ({ session := Session.fresh } : Calls).run [(0, quiet), (0, quiet), (1, quiet), (0, quiet)]

theorem log_overlapped : overlapped.log =
    [⟨0, .reported⟩, ⟨1, .coalesced⟩, ⟨0, .started⟩, ⟨0, .acquired⟩] := by decide

/-- The caller of that run starts one more, and no second one. -/
theorem gate_safe_overlapped :
    Session.fresh.gate = .idle ∧
      (overlapped.run (List.replicate 3 (0, quiet))).call 0 = .running ∧
      (overlapped.run (List.replicate 3 (0, quiet))).started 0 = 2 := by
  obtain ⟨report, hreport⟩ : ∃ report, overlapped.call 0 = .succeeded report :=
    Call.exists_succeeded (by decide)
  have hsince : CoalescedSince (Event.sets 0) overlapped.log := by
    rw [log_overlapped]
    exact ⟨⟨1, .coalesced⟩, by decide, rfl⟩
  obtain ⟨hrunning, hstarted⟩ :=
    ((gate_safe Session.fresh rfl _).2.2.2.2 0 report hreport).1 hsince
      (List.replicate 3 (0, quiet)) rfl
  have hone : overlapped.started 0 = 1 := by
    rw [started, log_overlapped]
    rfl
  exact ⟨rfl, hrunning, hstarted.trans (congrArg (· + 1) hone)⟩

end Calls

end ClientBuild
