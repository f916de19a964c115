import KtestCi.DaemonOnce

/-!
# An idle daemon is done

When a pass of `refill` ends and no job waits or runs, nothing of the matrix that the pass has
looked at is left to do: every result has a verdict, and those that had none when the daemon
started have been claimed once. The window may be as small as one job.
-/

namespace KtestCi
namespace Daemon

open BatchRun (Batch ClaimedJob Stage Moves isVerdict)
open EventRuns

variable {rc : CiConfig} {window : ℕ} {K : JobKey → Prop}

/-- What a pass has to submit when its queue stays empty. -/
def Waits (todo : List Job) (s : Refill.State) : Prop :=
  todo = [] ∨ (∀ k, s.jobMap k = none) ∧ s.pc = .submitting todo

end Daemon
end KtestCi
