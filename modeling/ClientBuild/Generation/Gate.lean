/-!
# The run gate

At most one generation runs at a time.  A trigger that arrives meanwhile is remembered, and the
running generation repeats once for all triggers that it has not seen.
-/

namespace ClientBuild

/-- The state of the gate. -/
inductive Gate where
  | idle
  | running
  /-- A run is under way, and a trigger arrived since it started. -/
  | pending
deriving DecidableEq, Repr, Inhabited

namespace Gate

/-- Try to start a run: the gate afterwards, and whether the run may start. -/
def tryAcquire : Gate → Gate × Bool
  | idle => (running, true)
  | running | pending => (pending, false)

/-- The first step of a release: open the gate if no trigger arrived. -/
def tryOpen : Gate → Gate × Bool
  | running => (idle, true)
  | g => (g, false)

/-- The second step of a release, when the gate could not be opened: the run repeats. -/
def keepRunning : Gate → Gate := fun _ => running

/-- End a successful run: the gate afterwards, and whether it is open.  If it is not, the run
repeats. -/
def release (g : Gate) : Gate × Bool :=
  match g.tryOpen with
  | (g, true) => (g, true)
  | (g, false) => (g.keepRunning, false)

/-- Open the gate after a run that failed. -/
def reset : Gate → Gate := fun _ => idle

/-- The number of runs that the holder of the gate still owes after the current one. -/
def owed : Gate → Nat
  | pending => 1
  | _ => 0

end Gate

end ClientBuild
