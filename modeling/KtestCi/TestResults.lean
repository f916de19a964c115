import KtestCi.TestStatusText
import KtestCi.TextMap

/-!
# Results of one commit

A result is a status, a start time in nanoseconds since the epoch and a duration in
seconds. The results of a commit are an ordered map from result keys.
-/

namespace KtestCi

structure TestResult where
  status : TestStatus
  starttime : ℤ
  duration : UInt64
  deriving DecidableEq

abbrev TestResultsMap := TextMap TestResult

/-- A recorded verdict: running the test again would not change it. -/
def resultIsDone : TestStatus → Bool
  | .passed | .failed | .notrun | .failedToRun => true
  | .inprogress | .unknown => false

/-- Whether a subtest with this recorded status is to be run. A result in progress is
neither done nor wanted. -/
def jobWanted : Option TestStatus → Bool
  | none => true
  | some s => !resultIsDone s && s != .inprogress

theorem jobWanted_iff (status : Option TestStatus) :
    jobWanted status = true ↔ status = none ∨ status = some .unknown := by
  cases status with
  | none => simp [jobWanted]
  | some s => cases s <;> simp [jobWanted, resultIsDone]

end KtestCi
