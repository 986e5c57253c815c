import ClientBuild.Proofs.Generation.RunGate

/-!
# What becomes of triggers

A trigger that was coalesced waits for the gate's holder.  As long as no run starts, the gate stays
pending or its holder is about to start one (`Calls.Waiting`), unless the run of the holder fails:
then the gate is reset, pending or not, and the trigger is dropped.  So behind every schedule, a
trigger was followed by the start of a run or by a reset once the gate is idle
(`Calls.coalesced_attended`), and some are not followed by the start of a run
(`Calls.trigger_dropped`).
-/

namespace ClientBuild

/-- Does the event end the wait of the triggers before it? -/
def Event.attends (e : Event) : Bool := e.move == .started || e.move == .reset

/-- A move ends the wait of triggers, or leaves a gate that is pending or a caller that is about to
start a run, or neither coalesces a trigger nor takes any of that away. -/
theorem Moves.attends_cases {m : Move} {k k' : Call} {g g' : Gate} (h : Moves m k g k' g')
    {i : Nat} : Event.attends ⟨i, m⟩ = true ∨ g' = .pending ∨ k' = .starting ∨
      (Event.attends ⟨i, m⟩ = false ∧ m ≠ .coalesced ∧ k ≠ .starting ∧
        (g = .pending → g' = .pending)) := by
  cases h with
  | started => exact .inl rfl
  | reset => exact .inl rfl
  | coalesced _ => exact .inr (.inl rfl)
  | acquired => exact .inr (.inr (.inl rfl))
  | repeated => exact .inr (.inr (.inl rfl))
  | disabled => exact .inr (.inr (.inr ⟨rfl, nofun, nofun, id⟩))
  | reported => exact .inr (.inr (.inr ⟨rfl, nofun, nofun, id⟩))
  | failed => exact .inr (.inr (.inr ⟨rfl, nofun, nofun, id⟩))
  | opened => exact .inr (.inr (.inr ⟨rfl, nofun, nofun, nofun⟩))
  | kept _ => exact .inr (.inr (.inr ⟨rfl, nofun, nofun, id⟩))

/-- A session where a directory is in the way of the cache. -/
def Session.blocked : Session where
  generator := Generator.standard
  store := { directories := [["build", "cool", "eps.json"]] }

namespace Calls

variable {s : Calls} {i : Nat} {c : Conditions} {m : Move} {k : Call} {session : Session}

/-- Triggers wait only for a gate that is pending, or for a run that is about to start. -/
def Waiting (s : Calls) : Prop :=
  CoalescedSince Event.attends s.log → s.gate = .pending ∨ ∃ i, s.call i = .starting

/-- **No step of any caller makes a trigger wait for nothing.** -/
theorem Waiting.step (hs : s.Waiting) (i : Nat) (c : Conditions) : (s.step i c).Waiting := by
  rcases step_cases s i c with ⟨_, _, heq⟩ | ⟨m, k, session, heq, hmoves⟩
  · rw [heq]
    exact hs
  rw [heq]
  intro hsince
  rw [log_advance] at hsince
  rcases hmoves.attends_cases with hattends | hgate | hstarting | ⟨hnone, hm, hne, hgate⟩
  · exact absurd hsince (not_coalescedSince_cons hattends)
  · exact .inl hgate
  · exact .inr ⟨i, call_advance_self.trans hstarting⟩
  · rw [coalescedSince_cons hnone, or_iff_right hm] at hsince
    rcases hs hsince with hpending | ⟨j, hj⟩
    · exact .inl (hgate hpending)
    · have hji : j ≠ i := by
        rintro rfl
        exact hne hj
      exact .inr ⟨j, (call_advance_of_ne hji).trans hj⟩

theorem Waiting.run (hs : s.Waiting) (schedule : List (Nat × Conditions)) :
    (s.run schedule).Waiting := run_induction (fun _ i c hs => hs.step i c) hs schedule

theorem waiting_start (start : Session) : ({ session := start } : Calls).Waiting :=
  fun hsince => nomatch hsince

/-- Callers that hold no gate and are outside no more do nothing. -/
theorem run_of_forall_ended {s : Calls} {schedule : List (Nat × Conditions)}
    (h : ∀ x ∈ schedule, ∃ r, s.call x.1 = .ended r) : s.run schedule = s := by
  induction schedule with
  | nil => rfl
  | cons x schedule ih =>
    obtain ⟨r, hr⟩ := h x List.mem_cons_self
    rw [run_cons, step_ended hr]
    exact ih fun y hy => h y (List.mem_cons_of_mem x hy)

theorem exists_ended {k : Call} (hout : k ≠ .outside) (h : ¬ k.Holds) : ∃ r, k = .ended r := by
  cases k with
  | ended r => exact ⟨r, rfl⟩
  | outside => exact absurd rfl hout
  | _ => exact absurd trivial h

/-- Behind the reset of a gate nothing happens until another trigger arrives. -/
theorem Ordered.run_reset (hs : s.Ordered) {e : Failure} (h : s.call i = .failed e)
    {more : List (Nat × Conditions)} (hmore : ∀ x ∈ more, s.call x.1 ≠ .outside) :
    (s.step i c).run more = s.step i c := by
  obtain ⟨_, hheld⟩ := hs.held
  have hi : (s.call i).Holds := by
    rw [h]
    trivial
  refine run_of_forall_ended fun x hx => ?_
  by_cases hxi : x.1 = i
  · rw [hxi, step_failed h]
    exact ⟨_, call_advance_self⟩
  · rw [call_step_of_ne hxi]
    exact exists_ended (hmore x hx) fun hin => hxi (hheld.eq hin hi)

/-- A trigger that waits has a caller inside to wait for. -/
theorem Ordered.exists_inside (hs : s.Ordered) (hwaiting : s.Waiting)
    (hsince : CoalescedSince Event.attends s.log) :
    ∃ i, Inside s.log i ∧ (s.gate = .pending ∨ s.call i = .starting) := by
  rcases hwaiting hsince with hpending | ⟨i, hi⟩
  · by_contra hnone
    have hidle : s.gate = .idle :=
      hs.idle_iff.2 fun i hi => hnone ⟨i, hi, .inl hpending⟩
    rw [hpending] at hidle
    cases hidle
  · have hholds : (s.call i).Holds := by
      rw [hi]
      trivial
    exact ⟨i, (hs.holds_iff_inside i).1 hholds, .inr hi⟩

/-- **Every trigger is attended to before the gate is idle: by a run, or by the reset that drops it.**
In whatever order any number of calls take their steps: a trigger that was coalesced and that neither
the start of a run nor a reset followed yet has a caller inside, and the gate is pending or that
caller is about to start a run.  When the gate is idle there is no such trigger.  But a caller whose
run failed resets the gate whether triggers wait or not, and behind that nothing happens until
another trigger arrives. -/
theorem coalesced_attended (start : Session) (hidle : start.gate = .idle)
    (schedule : List (Nat × Conditions)) :
    let s := ({ session := start } : Calls).run schedule
    (CoalescedSince Event.attends s.log →
      ∃ i, Inside s.log i ∧ (s.gate = .pending ∨ s.call i = .starting)) ∧
    (s.gate = .idle → ¬ CoalescedSince Event.attends s.log) ∧
    ∀ i c e, s.call i = .failed e →
      (s.step i c).call i = .ended (.error e) ∧ (s.step i c).gate = .idle ∧
      ∀ more, (∀ x ∈ more, s.call x.1 ≠ .outside) → (s.step i c).run more = s.step i c := by
  intro s
  have hs : s.Ordered := (ordered_start start hidle).run schedule
  have hwaiting : s.Waiting := (waiting_start start).run schedule
  refine ⟨fun hsince => ?_, fun hidle hsince => ?_, fun i c e he => ⟨?_, ?_, fun more hmore => ?_⟩⟩
  · exact hs.exists_inside hwaiting hsince
  · obtain ⟨i, hi, _⟩ := hs.exists_inside hwaiting hsince
    exact hs.idle_iff.1 hidle i hi
  · rw [step_failed he, call_advance_self]
  · rw [step_failed he, gate_advance]
  · exact hs.run_reset he hmore

/-- A trigger arrived during the run of another, which failed. -/
def unattended : Calls :=
  ({ session := Session.blocked } : Calls).run
    [(0, Session.unformatted), (0, Session.unformatted), (1, Session.unformatted),
      (0, Session.unformatted)]

theorem log_unattended : unattended.log =
    [⟨0, .failed⟩, ⟨1, .coalesced⟩, ⟨0, .started⟩, ⟨0, .acquired⟩] := by decide

theorem coalescedSince_unattended : CoalescedSince (Event.starts 0) unattended.log := by
  rw [log_unattended]
  exact ⟨⟨1, .coalesced⟩, by decide, rfl⟩

theorem exists_failed_unattended : ∃ e, unattended.call 0 = .failed e :=
  Call.exists_failed (by decide)

/-- The gate is idle behind the failure, and no step of the caller that was coalesced starts a run. -/
theorem coalesced_attended_blocked :
    Session.blocked.gate = .idle ∧ (unattended.step 0 Session.unformatted).gate = .idle ∧
      (unattended.step 0 Session.unformatted).run (List.replicate 3 (1, Session.unformatted)) =
        unattended.step 0 Session.unformatted := by
  obtain ⟨e, he⟩ := exists_failed_unattended
  have hcoalesced : unattended.call 1 ≠ .outside := by
    intro houtside
    have hordered : unattended.Ordered := (ordered_start Session.blocked rfl).run _
    refine hordered.not_mem_of_outside 1 houtside .coalesced ?_
    rw [log_unattended]
    decide
  obtain ⟨_, hidle, hquiet⟩ :=
    (coalesced_attended Session.blocked rfl _).2.2 0 Session.unformatted e he
  refine ⟨rfl, hidle, hquiet _ fun x hx => ?_⟩
  rw [List.eq_of_mem_replicate hx]
  exact hcoalesced

/-- **Not every trigger that is coalesced is followed by a run.**  When the run that it waits for
fails, its caller leaves without another one. -/
theorem trigger_dropped :
    ¬ ∀ (start : Session) (schedule : List (Nat × Conditions)) (i : Nat) (c : Conditions),
      start.gate = .idle →
      let s := ({ session := start } : Calls).run schedule
      Inside s.log i → ¬ Inside (s.step i c).log i → ¬ CoalescedSince (Event.starts i) s.log := by
  intro h
  obtain ⟨e, he⟩ := exists_failed_unattended
  refine h Session.blocked _ 0 Session.unformatted rfl ?_ ?_ coalescedSince_unattended
  · have hlog := log_unattended
    rw [unattended] at hlog
    rw [hlog]
    exact ⟨by decide, by decide, by decide⟩
  · intro hinside
    have hstep := step_failed (c := Session.unformatted) he
    rw [unattended] at hstep
    rw [hstep] at hinside
    exact hinside.2.2 List.mem_cons_self

end Calls

end ClientBuild
