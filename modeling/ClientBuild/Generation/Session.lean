import ClientBuild.Generation.Gate
import ClientBuild.Generation.Run

/-!
# Sessions

A session is a generator with its files, its gate and what it published last.
-/

namespace ClientBuild

/-- What a trigger leads to. -/
inductive Outcome where
  | completed (report : Report)
  /-- A run was under way and will repeat. -/
  | coalesced
  | disabled

/-- A generator at work. -/
structure Session where
  generator : Generator
  store : Store := {}
  published : Published := {}
  gate : Gate := .idle
  /-- The addresses asked so far. -/
  requested : List String := []

namespace Session

/-- The session behind one run, and the report of the run. -/
def afterRun (s : Session) (env : Environment) : Session × Except Failure Report :=
  let last := s.generator.run env s.store
  let s := { s with store := last.store, requested := s.requested ++ last.requested }
  match last.result with
  | .ok (report, published) => ({ s with published := published }, .ok report)
  | .error e => (s, .error e)

/-- Run until the gate `gate` opens: a run that succeeds repeats if a trigger is pending. -/
def runUntilOpen (env : Environment) (gate : Gate) (s : Session) :
    Session × Except Failure Outcome :=
  match s.afterRun env with
  | (s, .error e) => ({ s with gate := gate.reset }, .error e)
  | (s, .ok report) =>
    match gate with
    | .pending => runUntilOpen env .running s
    | .running | .idle => ({ s with gate := .idle }, .ok (.completed report))
termination_by gate.owed
decreasing_by simp [Gate.owed]

/-- A trigger that nothing overlaps. -/
def generate (s : Session) (env : Environment) : Session × Except Failure Outcome :=
  if !s.generator.settings.schema.enable then (s, .ok .disabled)
  else
    match s.gate.tryAcquire with
    | (gate, true) => runUntilOpen env gate s
    | (gate, false) => ({ s with gate := gate }, .ok .coalesced)

/-- The triggers that arrive while a run is under way: the gate behind them and their outcomes. -/
def triggers (enabled : Bool) : (n : Nat) → Gate → Gate × List Outcome
  | 0, g => (g, [])
  | n + 1, g =>
    if enabled then
      let (g', rest) := triggers enabled n g.tryAcquire.1
      (g', .coalesced :: rest)
    else
      let (g', rest) := triggers enabled n g
      (g', .disabled :: rest)

/-- A trigger during whose first run `n` further triggers arrive. -/
def generateOverlapped (s : Session) (env : Environment) (n : Nat) :
    Session × Except Failure Outcome × List Outcome :=
  let enabled := s.generator.settings.schema.enable
  let (gate, _) := s.gate.tryAcquire
  let (gate, others) := triggers enabled n gate
  if enabled then
    let (s, first) := runUntilOpen env gate s
    (s, first, others)
  else (s, .ok .disabled, others)

end Session

end ClientBuild
