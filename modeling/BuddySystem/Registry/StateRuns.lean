import BuddySystem.Registry

/-!
# The states of a registry's frames

`Registry.stateRuns` sums up the states of all frames as runs of equal states.
-/

namespace BuddySystem

/-- Consecutive frames in one state; `none` stands for frames whose descriptors cannot be
reached. -/
structure StateRun where
  first : Nat
  length : Nat
  state : Option PageState
deriving DecidableEq

def StateRun.extend (runs : List StateRun) (pfn : Nat) (state : Option PageState) :
    List StateRun :=
  match runs with
  | run :: earlier =>
    if run.state = state then { run with length := run.length + 1 } :: earlier
    else ⟨pfn, 1, state⟩ :: runs
  | [] => [⟨pfn, 1, state⟩]

/-- The states of all frames, from the first on, as runs of equal states. -/
def Registry.stateRuns (r : Registry) : List StateRun :=
  let runs := r.frameCount.fold (fun i _ runs =>
    StateRun.extend runs (r.base + i) ((r.page? (r.base + i)).map Page.state)) []
  runs.reverse

end BuddySystem
