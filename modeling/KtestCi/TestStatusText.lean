import KtestCi.TextSearch

/-!
# Test statuses and their textual forms

The six statuses of `testresult.capnp`, the loose parser that reads them back from a
`status` file, and the exact wire names. The parser first tries the exact names, then
searches the whole text for fixed words in a fixed order; both the list of words and
their order are the source's.
-/

namespace KtestCi

/-- The `Status` enumerants of `testresult.capnp`, in the order of their ordinals. -/
inductive TestStatus where
  | inprogress | passed | failed | notrun | failedToRun | unknown
  deriving DecidableEq, Repr

namespace TestStatus

def toStr : TestStatus → Text
  | inprogress => "In progress".toList
  | passed => "Passed".toList
  | failed => "Failed".toList
  | notrun => "Not run".toList
  | failedToRun => "Failed to run".toList
  | unknown => "Unknown".toList

/-- The search part of `from_str`, after the exact names have failed. -/
def search (status : Text) : TestStatus :=
  if status.isEmpty then inprogress
  else if status.contains "IN PROGRESS".toList then inprogress
  else if status.contains "PASSED".toList then passed
  else if status.contains "FAILED".toList then failed
  else if status.contains "NOTRUN".toList then notrun
  else if status.contains "FAILED TO RUN".toList || status.contains "NOT STARTED".toList then
    failedToRun
  else unknown

def fromStr (status : Text) : TestStatus :=
  if status = inprogress.toStr then inprogress
  else if status = passed.toStr then passed
  else if status = failed.toStr then failed
  else if status = notrun.toStr then notrun
  else if status = failedToRun.toStr then failedToRun
  else if status = unknown.toStr then unknown
  else search status

theorem fromStr_append_newline (t : Text) : fromStr (t ++ ['\n']) = search (t ++ ['\n']) := by
  have hne (s : TestStatus) : t ++ ['\n'] ≠ s.toStr := by
    intro h
    have hlast : (t ++ ['\n']).getLast? = s.toStr.getLast? := congrArg List.getLast? h
    rw [List.getLast?_concat] at hlast
    cases s <;> exact absurd hlast (by decide)
  simp only [fromStr, hne, if_false]

/-- The order of the searches, spelled out as one condition per status. -/
theorem search_eq_passed_iff {t : Text} (hne : t ≠ []) :
    search t = passed ↔ ¬ "IN PROGRESS".toList <:+: t ∧ "PASSED".toList <:+: t := by
  unfold search
  simp only [List.isEmpty_iff, hne, if_false, Text.contains_eq_true, Bool.or_eq_true]
  split_ifs <;> simp_all

theorem search_eq_failed_iff {t : Text} (hne : t ≠ []) :
    search t = failed ↔ ¬ "IN PROGRESS".toList <:+: t ∧ ¬ "PASSED".toList <:+: t ∧
      "FAILED".toList <:+: t := by
  unfold search
  simp only [List.isEmpty_iff, hne, if_false, Text.contains_eq_true, Bool.or_eq_true]
  split_ifs <;> simp_all

theorem search_eq_notrun_iff {t : Text} (hne : t ≠ []) :
    search t = notrun ↔ ¬ "IN PROGRESS".toList <:+: t ∧ ¬ "PASSED".toList <:+: t ∧
      ¬ "FAILED".toList <:+: t ∧ "NOTRUN".toList <:+: t := by
  unfold search
  simp only [List.isEmpty_iff, hne, if_false, Text.contains_eq_true, Bool.or_eq_true]
  split_ifs <;> simp_all

end TestStatus
end KtestCi
