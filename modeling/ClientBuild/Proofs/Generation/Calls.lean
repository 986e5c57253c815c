import ClientBuild.Proofs.Generation.Publication
import Mathlib.Logic.Function.Basic

/-!
# Calls that overlap

A call that triggers a generation takes one atomic step after the other, and between any two of them
any other call may take steps of its own.  `Call` says where a call stands and `Call.next` what its
next step does; `Calls.run` lets any number of calls take steps in the order of a schedule, and its
log remembers them.  A caller that triggers again counts as another one.

What the steps do to their call and to the gate is said once, in `Moves`.  The schedules in which a
call takes all its steps in a row, or is interrupted only during its first run, are the ones that
`Session.generate` and `Session.generateOverlapped` go through (`Calls.ends_generate` and
`Calls.ends_generateOverlapped`).
-/

namespace ClientBuild

/-! ## Steps -/

/-- Where a call stands. -/
inductive Call where
  /-- It has not asked for the gate yet. -/
  | outside
  /-- It holds the gate, and a run is to start. -/
  | starting
  | running
  /-- Its run reported, and the gate is to be opened. -/
  | succeeded (report : Report)
  /-- The gate was not opened, and is to be set for another run. -/
  | repeating
  /-- Its run failed, and the gate is to be reset. -/
  | failed (e : Failure)
  | ended (result : Except Failure Outcome)

/-- What a call did in one step. -/
inductive Move where
  | disabled
  | acquired
  | coalesced
  | started
  | reported
  | failed
  | opened
  /-- It did not open the gate, since a trigger had arrived. -/
  | kept
  /-- It set the gate for another run. -/
  | repeated
  | reset
deriving DecidableEq, Repr

namespace Call

/-- The next step of a call: what it does, where the call stands then, and the session behind it. -/
def next (c : Conditions) (s : Session) : Call → Option (Move × Call × Session)
  | outside =>
    if s.generator.settings.schema.enable then
      match s.gate.tryAcquire with
      | (gate, true) => some (.acquired, starting, { s with gate })
      | (gate, false) => some (.coalesced, ended (.ok .coalesced), { s with gate })
    else some (.disabled, ended (.ok .disabled), s)
  | starting => some (.started, running, s)
  | running =>
    match s.afterAttempt c with
    | (s, .ok report) => some (.reported, succeeded report, s)
    | (s, .error e) => some (.failed, failed e, s)
  | succeeded report =>
    match s.gate.tryOpen with
    | (gate, true) => some (.opened, ended (.ok (.completed report)), { s with gate })
    | (gate, false) => some (.kept, repeating, { s with gate })
  | repeating => some (.repeated, starting, { s with gate := s.gate.keepRunning })
  | failed e => some (.reset, ended (.error e), { s with gate := s.gate.reset })
  | ended _ => none

/-- Is the call between the step that acquired the gate and the one that gives it back? -/
def Holds : Call → Prop
  | outside | ended _ => False
  | starting | running | succeeded _ | repeating | failed _ => True

end Call

/-- A step that a caller took. -/
structure Event where
  caller : Nat
  move : Move
deriving DecidableEq, Repr

/-- Calls on one session, and the steps they took, the last one first. -/
structure Calls where
  session : Session
  call : Nat → Call := fun _ => .outside
  log : List Event := []

namespace Calls

/-- The calls behind a move of a caller. -/
def advance (s : Calls) (i : Nat) (m : Move) (k : Call) (session : Session) : Calls :=
  ⟨session, Function.update s.call i k, ⟨i, m⟩ :: s.log⟩

/-- The calls behind the next step of a caller, if it has one. -/
def step (s : Calls) (i : Nat) (c : Conditions) : Calls :=
  match (s.call i).next c s.session with
  | some (m, k, session) => s.advance i m k session
  | none => s

/-- The calls behind steps of callers in the order of a schedule. -/
def run (s : Calls) (schedule : List (Nat × Conditions)) : Calls :=
  schedule.foldl (fun s x => s.step x.1 x.2) s

/-- The gate of the session. -/
def gate (s : Calls) : Gate := s.session.gate

end Calls

/-! ## What a step does to its call and to the gate -/

theorem Gate.tryAcquire_of_ne {g : Gate} (h : g ≠ .idle) : g.tryAcquire = (.pending, false) := by
  cases g with
  | idle => exact absurd rfl h
  | running => rfl
  | pending => rfl

theorem Gate.tryOpen_of_ne {g : Gate} (h : g ≠ .running) : g.tryOpen = (g, false) := by
  cases g with
  | running => exact absurd rfl h
  | idle => rfl
  | pending => rfl

/-- What a move makes of the place of its call and of the gate. -/
inductive Moves : Move → Call → Gate → Call → Gate → Prop where
  | disabled {g : Gate} : Moves .disabled .outside g (.ended (.ok .disabled)) g
  | acquired : Moves .acquired .outside .idle .starting .running
  | coalesced {g : Gate} : g ≠ .idle → Moves .coalesced .outside g (.ended (.ok .coalesced)) .pending
  | started {g : Gate} : Moves .started .starting g .running g
  | reported {g : Gate} {report : Report} : Moves .reported .running g (.succeeded report) g
  | failed {g : Gate} {e : Failure} : Moves .failed .running g (.failed e) g
  | opened {report : Report} :
    Moves .opened (.succeeded report) .running (.ended (.ok (.completed report))) .idle
  | kept {g : Gate} {report : Report} : g ≠ .running →
    Moves .kept (.succeeded report) g .repeating g
  | repeated {g : Gate} : Moves .repeated .repeating g .starting .running
  | reset {g : Gate} {e : Failure} : Moves .reset (.failed e) g (.ended (.error e)) .idle

theorem Session.gate_afterAttempt (s : Session) (c : Conditions) :
    (s.afterAttempt c).1.gate = s.gate := s.settle_gate _

/-- The next step of a call is one of the moves. -/
theorem Call.moves_of_next {c : Conditions} {s s' : Session} {k k' : Call} {m : Move}
    (h : k.next c s = some (m, k', s')) : Moves m k s.gate k' s'.gate := by
  cases k with
  | outside =>
    simp only [next] at h
    split at h
    next =>
      by_cases hg : s.gate = .idle
      · rw [hg] at h ⊢
        cases h
        exact .acquired
      · rw [Gate.tryAcquire_of_ne hg] at h
        cases h
        exact .coalesced hg
    next =>
      cases h
      exact .disabled
  | starting =>
    cases h
    exact .started
  | running =>
    have hgate := s.gate_afterAttempt c
    simp only [next] at h
    split at h
    next heq =>
      cases h
      rw [heq] at hgate
      rw [← hgate]
      exact .reported
    next heq =>
      cases h
      rw [heq] at hgate
      rw [← hgate]
      exact .failed
  | succeeded report =>
    simp only [next] at h
    by_cases hg : s.gate = .running
    · rw [hg] at h ⊢
      cases h
      exact .opened
    · rw [Gate.tryOpen_of_ne hg] at h
      cases h
      exact .kept hg
  | repeating =>
    cases h
    exact .repeated
  | failed e =>
    cases h
    exact .reset
  | ended r => cases h

/-- A call waits for nothing: until it is over it has a next step. -/
theorem Call.exists_ended_of_next {c : Conditions} {s : Session} {k : Call}
    (h : k.next c s = none) : ∃ r, k = .ended r := by
  cases k with
  | ended r => exact ⟨r, rfl⟩
  | outside =>
    simp only [next] at h
    split at h
    next => split at h <;> cases h
    next => cases h
  | running =>
    simp only [next] at h
    split at h <;> cases h
  | succeeded report =>
    simp only [next] at h
    split at h <;> cases h
  | starting => cases h
  | repeating => cases h
  | failed e => cases h

namespace Calls

variable {s : Calls} {i j : Nat} {c : Conditions} {m : Move} {k : Call} {session : Session}

@[simp] theorem session_advance : (s.advance i m k session).session = session := rfl

@[simp] theorem gate_advance : (s.advance i m k session).gate = session.gate := rfl

@[simp] theorem log_advance : (s.advance i m k session).log = ⟨i, m⟩ :: s.log := rfl

@[simp] theorem call_advance_self : (s.advance i m k session).call i = k := by
  simp only [advance, Function.update_self]

@[simp] theorem call_advance_of_ne (h : j ≠ i) : (s.advance i m k session).call j = s.call j := by
  simp only [advance, Function.update_of_ne h]

theorem run_cons (s : Calls) (x : Nat × Conditions) (schedule : List (Nat × Conditions)) :
    s.run (x :: schedule) = (s.step x.1 x.2).run schedule := rfl

/-- What every step keeps holds behind every schedule. -/
theorem run_induction {P : Calls → Prop} (hstep : ∀ s i c, P s → P (s.step i c)) (h : P s)
    (schedule : List (Nat × Conditions)) : P (s.run schedule) := by
  induction schedule generalizing s with
  | nil => exact h
  | cons x schedule ih => exact ih (hstep s x.1 x.2 h)

/-- A caller whose call is over does nothing more; any other makes one of the moves. -/
theorem step_cases (s : Calls) (i : Nat) (c : Conditions) :
    (∃ r, s.call i = .ended r ∧ s.step i c = s) ∨
      ∃ m k session, s.step i c = s.advance i m k session ∧
        Moves m (s.call i) s.gate k session.gate := by
  cases hnext : (s.call i).next c s.session with
  | none =>
    obtain ⟨r, hr⟩ := Call.exists_ended_of_next hnext
    exact .inl ⟨r, hr, by rw [step, hnext]⟩
  | some x =>
    obtain ⟨m, k, session⟩ := x
    exact .inr ⟨m, k, session, by rw [step, hnext], Call.moves_of_next hnext⟩

/-- A step of a caller leaves the calls of the others where they stand. -/
theorem call_step_of_ne (h : j ≠ i) : (s.step i c).call j = s.call j := by
  rcases step_cases s i c with ⟨_, _, hs⟩ | ⟨m, k, session, hs, _⟩
  · rw [hs]
  · rw [hs, call_advance_of_ne h]

theorem step_eq (h : (s.call i).next c s.session = some (m, k, session)) :
    s.step i c = s.advance i m k session := by
  rw [step, h]

theorem step_ended {r : Except Failure Outcome} (h : s.call i = .ended r) : s.step i c = s := by
  rw [step, h]
  rfl

theorem step_disabled (h : s.call i = .outside)
    (hoff : s.session.generator.settings.schema.enable = false) :
    s.step i c = s.advance i .disabled (.ended (.ok .disabled)) s.session :=
  step_eq (by rw [h, Call.next, hoff]; rfl)

theorem step_acquired (h : s.call i = .outside)
    (hon : s.session.generator.settings.schema.enable = true) (hg : s.gate = .idle) :
    s.step i c = s.advance i .acquired .starting { s.session with gate := .running } := by
  have hgate : s.session.gate = .idle := hg
  exact step_eq (by rw [h, Call.next, hon, hgate]; rfl)

theorem step_coalesced (h : s.call i = .outside)
    (hon : s.session.generator.settings.schema.enable = true) (hg : s.gate ≠ .idle) :
    s.step i c =
      s.advance i .coalesced (.ended (.ok .coalesced)) { s.session with gate := .pending } := by
  have hgate : s.session.gate.tryAcquire = (.pending, false) := Gate.tryAcquire_of_ne hg
  exact step_eq (by rw [h, Call.next, hon, hgate]; rfl)

theorem step_running_ok {report : Report} (h : s.call i = .running)
    (hrun : s.session.afterAttempt c = (session, .ok report)) :
    s.step i c = s.advance i .reported (.succeeded report) session :=
  step_eq (by rw [h, Call.next, hrun])

theorem step_running_error {e : Failure} (h : s.call i = .running)
    (hrun : s.session.afterAttempt c = (session, .error e)) :
    s.step i c = s.advance i .failed (.failed e) session :=
  step_eq (by rw [h, Call.next, hrun])

theorem step_opened {report : Report} (h : s.call i = .succeeded report) (hg : s.gate = .running) :
    s.step i c =
      s.advance i .opened (.ended (.ok (.completed report))) { s.session with gate := .idle } := by
  have hgate : s.session.gate = .running := hg
  exact step_eq (by rw [h, Call.next, hgate]; rfl)

theorem step_kept {report : Report} (h : s.call i = .succeeded report) (hg : s.gate = .pending) :
    s.step i c = s.advance i .kept .repeating s.session := by
  have hgate : s.session.gate = .pending := hg
  refine step_eq ?_
  rw [h, Call.next, hgate]
  simp only [Gate.tryOpen, ← hgate]

theorem step_repeating (h : s.call i = .repeating) :
    s.step i c = s.advance i .repeated .starting { s.session with gate := .running } :=
  step_eq (by rw [h]; rfl)

theorem step_starting (h : s.call i = .starting) :
    s.step i c = s.advance i .started .running s.session :=
  step_eq (by rw [h]; rfl)

theorem step_failed {e : Failure} (h : s.call i = .failed e) :
    s.step i c = s.advance i .reset (.ended (.error e)) { s.session with gate := .idle } :=
  step_eq (by rw [h]; rfl)

end Calls

/-! ## Calls that nothing overlaps, or only during their first run -/

namespace Session

variable {s s' : Session} {env : Environment} {g : Gate}

/-- A run does not look at the gate. -/
theorem afterRun_gate (s : Session) (env : Environment) (g : Gate) :
    ({ s with gate := g } : Session).afterRun env =
      ({ (s.afterRun env).1 with gate := g }, (s.afterRun env).2) := by
  simp only [afterRun]
  cases (s.generator.run env s.store).result with
  | error e => rfl
  | ok r => rfl

theorem runUntilOpen_error {e : Failure} (h : s.afterRun env = (s', .error e)) :
    runUntilOpen env g s = ({ s' with gate := .idle }, .error e) := by
  rw [runUntilOpen, h]
  rfl

theorem runUntilOpen_ok {report : Report} (h : s.afterRun env = (s', .ok report))
    (hg : g ≠ .pending) :
    runUntilOpen env g s = ({ s' with gate := .idle }, .ok (.completed report)) := by
  rw [runUntilOpen, h]
  cases g with
  | pending => exact absurd rfl hg
  | idle => rfl
  | running => rfl

theorem runUntilOpen_pending {report : Report} (h : s.afterRun env = (s', .ok report)) :
    runUntilOpen env .pending s = runUntilOpen env .running s' := by
  rw [runUntilOpen, h]

theorem generate_off (hoff : s.generator.settings.schema.enable = false) :
    s.generate env = (s, .ok .disabled) := by
  rw [generate, hoff]
  rfl

theorem generate_idle (hon : s.generator.settings.schema.enable = true) (hg : s.gate = .idle) :
    s.generate env = runUntilOpen env .running s := by
  rw [generate, hon, hg]
  rfl

theorem generate_coalesced (hon : s.generator.settings.schema.enable = true)
    (hg : s.gate ≠ .idle) : s.generate env = ({ s with gate := .pending }, .ok .coalesced) := by
  rw [generate, hon, Gate.tryAcquire_of_ne hg]
  rfl

/-- What a run until the gate opens leads to does not depend on the gate of its session. -/
theorem runUntilOpen_gate (s : Session) (env : Environment) (g g' : Gate) :
    runUntilOpen env g { s with gate := g' } = runUntilOpen env g s := by
  cases h : s.afterRun env with
  | mk s' result =>
    have h' : ({ s with gate := g' } : Session).afterRun env = ({ s' with gate := g' }, result) := by
      rw [afterRun_gate, h]
    cases result with
    | error e => rw [runUntilOpen_error h, runUntilOpen_error h']
    | ok report =>
      cases g with
      | pending =>
        rw [runUntilOpen_pending h, runUntilOpen_pending h']
        exact runUntilOpen_gate s' env .running g'
      | running => rw [runUntilOpen_ok h (by decide), runUntilOpen_ok h' (by decide)]
      | idle => rw [runUntilOpen_ok h (by decide), runUntilOpen_ok h' (by decide)]
termination_by g.owed
decreasing_by decide

end Session

namespace Calls

variable {s : Calls} {i : Nat} {env : Environment} {r : Except Failure Outcome}

/-- Steps of one caller alone end its call with that session and that result. -/
def Ends (s : Calls) (i : Nat) (env : Environment) (x : Session × Except Failure Outcome) : Prop :=
  ∃ n, (s.run (List.replicate n (i, { toEnvironment := env }))).session = x.1 ∧
    (s.run (List.replicate n (i, { toEnvironment := env }))).call i = .ended x.2

theorem ends_of_ended (h : s.call i = .ended r) : s.Ends i env (s.session, r) := ⟨0, rfl, h⟩

theorem ends_step {t : Calls} {x : Session × Except Failure Outcome}
    (h : s.step i { toEnvironment := env } = t) (ht : t.Ends i env x) : s.Ends i env x := by
  obtain ⟨n, hn⟩ := ht
  subst h
  exact ⟨n + 1, hn⟩

/-- A call that is running goes on as the run until the gate opens does. -/
theorem ends_running {s : Calls} (h : s.call i = .running) (hg : s.gate ≠ .idle) :
    s.Ends i env (Session.runUntilOpen env s.gate s.session) := by
  have hgate := s.session.gate_afterAttempt { toEnvironment := env }
  cases hrun : s.session.afterRun env with
  | mk session result =>
    have hattempt := (s.session.afterAttempt_plain env).trans hrun
    rw [hattempt] at hgate
    cases result with
    | error e =>
      rw [Session.runUntilOpen_error hrun]
      refine ends_step (step_running_error h hattempt) ?_
      exact ends_step (step_failed call_advance_self) (ends_of_ended call_advance_self)
    | ok report =>
      refine ends_step (step_running_ok h hattempt) ?_
      cases hs : s.gate with
      | idle => exact absurd hs hg
      | running =>
        rw [Session.runUntilOpen_ok hrun (by decide)]
        exact ends_step (step_opened call_advance_self (hgate.trans hs))
          (ends_of_ended call_advance_self)
      | pending =>
        rw [Session.runUntilOpen_pending hrun]
        refine ends_step (step_kept call_advance_self (hgate.trans hs)) ?_
        refine ends_step (step_repeating call_advance_self) ?_
        refine ends_step (step_starting call_advance_self) ?_
        rw [← Session.runUntilOpen_gate session env .running .running]
        exact ends_running call_advance_self (by simp)
termination_by s.gate.owed
decreasing_by
  rw [hs]
  exact Nat.zero_lt_one

/-- **A trigger that nothing overlaps is a call that takes all its steps in a row.** -/
theorem ends_generate (s : Session) (env : Environment) (i : Nat) :
    ({ session := s } : Calls).Ends i env (s.generate env) := by
  cases hon : s.generator.settings.schema.enable with
  | false =>
    rw [Session.generate_off hon]
    exact ends_step (step_disabled rfl hon) (ends_of_ended call_advance_self)
  | true =>
    by_cases hg : s.gate = .idle
    · rw [Session.generate_idle hon hg, ← s.runUntilOpen_gate env .running .running]
      refine ends_step (step_acquired rfl hon hg) ?_
      refine ends_step (step_starting call_advance_self) ?_
      exact ends_running call_advance_self (by simp)
    · rw [Session.generate_coalesced hon hg]
      exact ends_step (step_coalesced rfl hon hg) (ends_of_ended call_advance_self)

/-! ### Triggers during the first run -/

theorem triggers_outcomes (n : Nat) (g : Gate) :
    (Session.triggers true n g).2 = List.replicate n .coalesced := by
  induction n generalizing g with
  | zero => rfl
  | succ n ih => exact congrArg (Outcome.coalesced :: ·) (ih g.tryAcquire.1)

theorem triggers_gate_ne (n : Nat) {g : Gate} (h : g ≠ .idle) :
    (Session.triggers true n g).1 ≠ .idle := by
  induction n generalizing g with
  | zero => exact h
  | succ n ih =>
    refine ih (g := g.tryAcquire.1) ?_
    rw [Gate.tryAcquire_of_ne h]
    exact nofun

/-- Callers that trigger while the gate is not idle are turned away at once. -/
theorem run_triggers {c : Conditions} {js : List Nat} (hn : js.Nodup) {s : Calls}
    (hon : s.session.generator.settings.schema.enable = true) (hg : s.gate ≠ .idle)
    (hout : ∀ j ∈ js, s.call j = .outside) :
    let t := s.run (js.map fun j => (j, c))
    t.session = { s.session with gate := (Session.triggers true js.length s.gate).1 } ∧
      (∀ j ∉ js, t.call j = s.call j) ∧ ∀ j ∈ js, t.call j = .ended (.ok .coalesced) := by
  induction js generalizing s with
  | nil => exact ⟨rfl, fun _ _ => rfl, fun j hj => absurd hj List.not_mem_nil⟩
  | cons j js ih =>
    obtain ⟨hj, hn⟩ := List.nodup_cons.1 hn
    have hother : ∀ k ∈ js, k ≠ j := fun k hk heq => hj (heq ▸ hk)
    have hstep := step_coalesced (c := c) (hout j List.mem_cons_self) hon hg
    have hpending : (s.step j c).gate = .pending := by rw [hstep, gate_advance]
    obtain ⟨hsession, hrest, hcalls⟩ := ih hn (s := s.step j c)
      (by rw [hstep, session_advance]; exact hon)
      (by rw [hpending]; exact nofun)
      (fun k hk => by
        rw [call_step_of_ne (hother k hk)]
        exact hout k (List.mem_cons_of_mem j hk))
    refine ⟨?_, fun k hk => ?_, fun k hk => ?_⟩
    · refine hsession.trans ?_
      rw [hpending, hstep, List.length_cons, Session.triggers, Gate.tryAcquire_of_ne hg]
      rfl
    · have hkj : k ≠ j := fun heq => hk (heq ▸ List.mem_cons_self)
      exact (hrest k fun hkjs => hk (List.mem_cons_of_mem j hkjs)).trans (call_step_of_ne hkj)
    · rcases List.mem_cons.1 hk with rfl | hk
      · refine (hrest k hj).trans ?_
        rw [hstep, call_advance_self]
      · exact hcalls k hk

/-- The first two steps of a call that finds the gate idle. -/
theorem step_step {s : Calls} {i : Nat} (c : Conditions) (h : s.call i = .outside)
    (hon : s.session.generator.settings.schema.enable = true) (hg : s.gate = .idle) :
    ((s.step i c).step i c).session = { s.session with gate := .running } ∧
      ((s.step i c).step i c).call i = .running := by
  rw [step_acquired h hon hg, step_starting call_advance_self]
  exact ⟨rfl, call_advance_self⟩

/-- **A trigger during whose first run others arrive is a call that lets a step of each of theirs
come between two of its own.** -/
theorem ends_generateOverlapped (s : Session) (env : Environment) (n : Nat)
    (hon : s.generator.settings.schema.enable = true) (hg : s.gate = .idle) :
    let c : Conditions := { toEnvironment := env }
    let t := ({ session := s } : Calls).run
      ((0, c) :: (0, c) :: (List.range' 1 n).map fun j => (j, c))
    t.Ends 0 env ((s.generateOverlapped env n).1, (s.generateOverlapped env n).2.1) ∧
      (List.range' 1 n).map t.call =
        (s.generateOverlapped env n).2.2.map fun outcome => .ended (.ok outcome) := by
  intro c t
  have hoverlapped : s.generateOverlapped env n =
      ((Session.runUntilOpen env (Session.triggers true n .running).1 s).1,
        (Session.runUntilOpen env (Session.triggers true n .running).1 s).2,
        (Session.triggers true n .running).2) := by
    rw [Session.generateOverlapped, hon, hg]
    rfl
  obtain ⟨hsession, hrunning⟩ := step_step (s := { session := s }) (i := 0) c rfl hon hg
  have hpos : ∀ j ∈ List.range' 1 n, j ≠ 0 := fun j hj =>
    Nat.one_le_iff_ne_zero.1 (List.mem_range'_1.1 hj).1
  have hgate : ((({ session := s } : Calls).step 0 c).step 0 c).gate = .running :=
    congrArg Session.gate hsession
  obtain ⟨hbehind, hrest, hcalls⟩ := run_triggers (c := c) (List.nodup_range' (s := 1) (n := n))
    (s := (({ session := s } : Calls).step 0 c).step 0 c) (by rw [hsession]; exact hon)
    (by rw [hgate]; exact nofun)
    (fun j hj => by rw [call_step_of_ne (hpos j hj), call_step_of_ne (hpos j hj)])
  rw [hsession, hgate, List.length_range'] at hbehind
  have hrunning : t.call 0 = .running := (hrest 0 fun h0 => hpos 0 h0 rfl).trans hrunning
  have hsession : t.session = { s with gate := (Session.triggers true n .running).1 } := hbehind
  have hgate : t.gate = (Session.triggers true n .running).1 := congrArg Session.gate hsession
  have hne : t.gate ≠ .idle := hgate ▸ triggers_gate_ne n nofun
  refine ⟨?_, ?_⟩
  · have hopens : t.Ends 0 env (Session.runUntilOpen env t.gate t.session) :=
      ends_running hrunning hne
    rw [hgate, hsession, Session.runUntilOpen_gate] at hopens
    rw [hoverlapped]
    exact hopens
  · rw [hoverlapped, triggers_outcomes, List.map_replicate, List.eq_replicate_iff]
    refine ⟨by rw [List.length_map, List.length_range'], ?_⟩
    intro k hk
    obtain ⟨j, hj, rfl⟩ := List.mem_map.1 hk
    exact hcalls j hj

end Calls

end ClientBuild
