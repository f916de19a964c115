import KtestCi.TextSearch

/-!
# How the supervisor reads one console line

`getline` hands over a line with its terminator. `strim` removes the terminator and
nothing else; the remaining functions recognise the markers that `run_tests` prints
around a test, the watchdog request and the monitor request.
-/

namespace KtestCi.Supervisor

/-- Strip the line terminators that `getline` left on, and nothing else. -/
def strim (line : Text) : Text :=
  line.rdropWhile (fun c => c = '\n' || c = '\r')

/-- The rest of the string after the prefix, or `none` if it does not start with it. -/
def strStartsWith (str pre : Text) : Option Text :=
  if pre.isPrefixOf str then some (str.drop pre.length) else none

/-- The name of a test whose start marker this line is. The name becomes part of a
path, so every `/` in it is a `.` there. -/
def testIsStarting (line : Text) : Option Text :=
  (strStartsWith line "========= TEST   ".toList).map (Text.replaceChar '/' '.')

def testIsEnding (line : Text) : Bool :=
  (strStartsWith line "========= PASSED ".toList).isSome ||
  (strStartsWith line "========= FAILED ".toList).isSome ||
  (strStartsWith line "========= NOTRUN".toList).isSome

@[simp] theorem strStartsWith_isSome {str pre : Text} :
    (strStartsWith str pre).isSome = true ↔ pre <+: str := by
  unfold strStartsWith
  split_ifs with h
  · simpa using h
  · simpa using h

/-- No line both starts and ends a test. -/
theorem testIsEnding_eq_false_of_starting {line t : Text} (h : testIsStarting line = some t) :
    testIsEnding line = false := by
  have hs : "========= TEST   ".toList <+: line := by
    rw [← strStartsWith_isSome]
    obtain ⟨rest, hrest, -⟩ := Option.map_eq_some_iff.mp h
    rw [hrest]
    rfl
  obtain ⟨rest, rfl⟩ := hs
  simp [testIsEnding, strStartsWith]

/-- What `write_test_file("status", "%s\n", line)` leaves in the file when the guest
printed `printed` and a newline. -/
def statusFile (printed : Text) : Text := strim (printed ++ ['\n']) ++ ['\n']

theorem statusFile_eq (printed : Text) : statusFile printed = strim printed ++ ['\n'] := by
  unfold statusFile strim
  rw [List.rdropWhile_concat_pos _ _ _ (by decide)]

theorem infix_statusFile_iff {w printed : Text} (hn : '\n' ∉ w) (hr : '\r' ∉ w) :
    w <:+: statusFile printed ↔ w <:+: printed := by
  have hw : ∀ c ∈ w, (decide (c = '\n') || decide (c = '\r')) = false := by
    intro c hc
    have h₁ : c ≠ '\n' := fun h => hn (h ▸ hc)
    have h₂ : c ≠ '\r' := fun h => hr (h ▸ hc)
    simp [h₁, h₂]
  rw [statusFile_eq, Text.infix_append_cons_iff hn, strim, Text.infix_rdropWhile_iff hw]
  constructor
  · rintro (h | h)
    · exact h
    · simp [List.infix_nil.mp h]
  · exact .inl

end KtestCi.Supervisor
