import KtestCi.TestStatusText
import KtestCi.SupervisorLines

/-!
# Verdict lines: what the guest prints and what the daemon reads back

`run_tests` builds its verdict line from a test name, an elapsed time and, for a
skipped test, a free-text reason. The supervisor copies the line into the status file
and the daemon classifies the file by substring searches. The two ends agree exactly
when the free parts do not contain a word of an earlier search.
-/

namespace KtestCi

/-- A subtest name as the shell hands it over: one non-empty word. -/
structure SubtestName where
  text : Text
  ne_nil : text ≠ []
  noWhitespace : ∀ c ∈ text, c.isWhitespace = false

/-- The reason a test gave to `ktest_skip`: one line of text. -/
structure SkipReason where
  text : Text
  oneLine : '\n' ∉ text

namespace RunTests

/-- The three ways `run_tests` closes a subtest. -/
inductive Verdict where
  | passed
  | failed
  | notrun (reason : SkipReason)

/-- The line `run_tests` echoes at the end of subtest `i`. -/
def verdictLine (i : Text) (elapsed : ℤ) : Verdict → Text
  | .passed => "========= PASSED ".toList ++ i ++ " in ".toList ++ Text.ofInt elapsed ++ "s".toList
  | .failed => "========= FAILED ".toList ++ i ++ " in ".toList ++ Text.ofInt elapsed ++ "s".toList
  | .notrun r => "========= NOTRUN ".toList ++ i ++ " in ".toList ++ Text.ofInt elapsed ++
      "s: ".toList ++ r.text

def Verdict.status : Verdict → TestStatus
  | .passed => .passed
  | .failed => .failed
  | .notrun _ => .notrun

/-- The free text of the line has no word that the daemon searches for before the
word of the verdict itself. -/
def Verdict.Unambiguous (i : Text) : Verdict → Prop
  | .passed => True
  | .failed => ¬ "PASSED".toList <:+: i
  | .notrun r => (¬ "PASSED".toList <:+: i ∧ ¬ "FAILED".toList <:+: i) ∧
      ¬ "IN PROGRESS".toList <:+: r.text ∧ ¬ "PASSED".toList <:+: r.text ∧
      ¬ "FAILED".toList <:+: r.text

def leadingWords (word i : Text) (elapsed : ℤ) (tail : Text) : Text :=
  "=========".toList ++ ' ' :: (word ++ ' ' :: (i ++ ' ' :: ("in".toList ++ ' ' ::
    (Text.ofInt elapsed ++ tail))))

theorem verdictLine_passed (i : Text) (elapsed : ℤ) :
    verdictLine i elapsed .passed = leadingWords "PASSED".toList i elapsed "s".toList := by
  unfold verdictLine leadingWords
  simp only [String.reduceToList, List.cons_append, List.append_assoc, List.nil_append]

theorem verdictLine_failed (i : Text) (elapsed : ℤ) :
    verdictLine i elapsed .failed = leadingWords "FAILED".toList i elapsed "s".toList := by
  unfold verdictLine leadingWords
  simp only [String.reduceToList, List.cons_append, List.append_assoc, List.nil_append]

theorem verdictLine_notrun (i : Text) (elapsed : ℤ) (r : SkipReason) :
    verdictLine i elapsed (.notrun r) =
      leadingWords "NOTRUN".toList i elapsed "s:".toList ++ ' ' :: r.text := by
  unfold verdictLine leadingWords
  simp only [String.reduceToList, List.cons_append, List.append_assoc, List.nil_append]

private theorem blank_notMem (i : SubtestName) : ' ' ∉ i.text := by
  intro h
  simpa [Char.isWhitespace] using i.noWhitespace _ h

private theorem blank_notMem_time (elapsed : ℤ) : ' ' ∉ Text.ofInt elapsed := by
  intro h
  rcases Text.mem_ofInt h with h | h <;> exact absurd h (by decide)

private theorem upper_notMem_time {c : Char} (hc : c.isUpper = true) (elapsed : ℤ) :
    c ∉ Text.ofInt elapsed := by
  intro h
  rcases Text.mem_ofInt h with rfl | h
  · exact absurd hc (by decide)
  · obtain ⟨hlower, -⟩ : c.val ≥ 'A'.val ∧ c.val ≤ 'Z'.val := of_decide_eq_true hc
    obtain ⟨-, hupper⟩ := Bool.and_eq_true_iff.mp h
    have h₁ := UInt32.le_iff_toNat_le.mp hlower
    have h₂ := UInt32.le_iff_toNat_le.mp (of_decide_eq_true hupper)
    exact absurd (h₁.trans h₂) (by decide)

/-- A capital word without blanks occurs in the leading words only inside the verdict
word or inside the test name. -/
theorem infix_leadingWords_iff (w word i : Text) (elapsed : ℤ) (tail : Text) {c : Char}
    (hw : ' ' ∉ w) (hc : c ∈ w) (hu : c.isUpper = true) (ht : c ∉ tail) :
    w <:+: leadingWords word i elapsed tail ↔ w <:+: word ∨ w <:+: i := by
  have h₁ : ¬ w <:+: "=========".toList :=
    Text.not_infix_of_notMem hc (fun h => by
      rw [List.eq_of_mem_replicate (n := 9) (a := '=') h] at hu; exact absurd hu (by decide))
  have h₂ : ¬ w <:+: "in".toList :=
    Text.not_infix_of_notMem hc (fun h => by
      rcases List.mem_pair.mp h with rfl | rfl <;> exact absurd hu (by decide))
  have h₃ : ¬ w <:+: Text.ofInt elapsed ++ tail :=
    Text.not_infix_of_notMem hc (by simp [upper_notMem_time hu, ht])
  unfold leadingWords
  simp only [Text.infix_append_cons_iff hw, h₁, h₂, h₃, false_or, or_false]

theorem not_inProgress_infix_leadingWords (word : Text) (i : SubtestName) (elapsed : ℤ)
    (tail : Text) (hb : ' ' ∉ word) (hword : ¬ "IN".toList <:+ word) (ht : ' ' ∉ tail) :
    ¬ "IN PROGRESS".toList <:+: leadingWords word i.text elapsed tail := by
  have hp : "IN PROGRESS".toList = "IN".toList ++ ' ' :: "PROGRESS".toList := by decide
  have hmem : ' ' ∈ "IN PROGRESS".toList := by decide
  have hlast : ' ' ∉ Text.ofInt elapsed ++ tail := by
    simp [blank_notMem_time, ht]
  have hsplit := fun (a b : Text) => Text.two_words_infix_append_cons_iff (a := a) (b := b)
    (show ' ' ∉ "IN".toList by decide) (show ' ' ∉ "PROGRESS".toList by decide)
  rw [hp] at hmem ⊢
  unfold leadingWords
  rw [hsplit, hsplit, hsplit, hsplit]
  rintro (h | (h | (h | (h | h | h) | h) | h) | h)
  · exact absurd h (by decide)
  · exact Text.not_infix_of_notMem hmem hb h
  · exact Text.not_infix_of_notMem hmem (blank_notMem i) h
  · exact absurd h (by decide)
  · exact Text.not_infix_of_notMem hmem hlast h
  · exact absurd h.1 (by decide)
  · simp at h
  · exact hword h.1
  · exact absurd h.1 (by decide)

/-- The status file is classified by what the printed line contains. -/
private theorem fromStr_statusFile (printed : Text) :
    TestStatus.fromStr (Supervisor.statusFile printed) =
      TestStatus.search (Supervisor.statusFile printed) := by
  rw [Supervisor.statusFile_eq]
  exact TestStatus.fromStr_append_newline _

private theorem statusFile_ne_nil (printed : Text) : Supervisor.statusFile printed ≠ [] := by
  simp [Supervisor.statusFile]

private theorem infix_statusFile_inProgress (printed : Text) :
    "IN PROGRESS".toList <:+: Supervisor.statusFile printed ↔ "IN PROGRESS".toList <:+: printed :=
  Supervisor.infix_statusFile_iff (by decide) (by decide)

private theorem infix_statusFile_passed (printed : Text) :
    "PASSED".toList <:+: Supervisor.statusFile printed ↔ "PASSED".toList <:+: printed :=
  Supervisor.infix_statusFile_iff (by decide) (by decide)

private theorem infix_statusFile_failed (printed : Text) :
    "FAILED".toList <:+: Supervisor.statusFile printed ↔ "FAILED".toList <:+: printed :=
  Supervisor.infix_statusFile_iff (by decide) (by decide)

private theorem infix_statusFile_notrun (printed : Text) :
    "NOTRUN".toList <:+: Supervisor.statusFile printed ↔ "NOTRUN".toList <:+: printed :=
  Supervisor.infix_statusFile_iff (by decide) (by decide)

theorem fromStr_passed (i : SubtestName) (elapsed : ℤ) :
    TestStatus.fromStr (Supervisor.statusFile (verdictLine i.text elapsed .passed)) = .passed := by
  rw [fromStr_statusFile, TestStatus.search_eq_passed_iff (statusFile_ne_nil _)]
  simp only [infix_statusFile_inProgress, infix_statusFile_passed, verdictLine_passed]
  constructor
  · exact not_inProgress_infix_leadingWords _ i elapsed _ (by decide) (by decide) (by decide)
  · rw [infix_leadingWords_iff _ _ _ _ _ (c := 'P') (by decide) (by decide) (by decide) (by decide)]
    exact .inl List.infix_rfl

theorem fromStr_failed_iff (i : SubtestName) (elapsed : ℤ) :
    TestStatus.fromStr (Supervisor.statusFile (verdictLine i.text elapsed .failed)) = .failed ↔
      ¬ "PASSED".toList <:+: i.text := by
  have hin := not_inProgress_infix_leadingWords "FAILED".toList i elapsed "s".toList (by decide)
    (by decide) (by decide)
  have hpassed := infix_leadingWords_iff "PASSED".toList "FAILED".toList i.text elapsed "s".toList
    (c := 'P') (by decide) (by decide) (by decide) (by decide)
  have hfailed := infix_leadingWords_iff "FAILED".toList "FAILED".toList i.text elapsed "s".toList
    (c := 'F') (by decide) (by decide) (by decide) (by decide)
  have hword : ¬ "PASSED".toList <:+: "FAILED".toList := by decide
  rw [fromStr_statusFile, TestStatus.search_eq_failed_iff (statusFile_ne_nil _)]
  simp only [infix_statusFile_inProgress, infix_statusFile_passed, infix_statusFile_failed,
    verdictLine_failed, hin, hpassed, hfailed, hword, List.infix_rfl, not_false_eq_true, false_or,
    true_or, and_true, true_and]

theorem inProgress_infix_notrun_iff (i : SubtestName) (elapsed : ℤ) (r : SkipReason) :
    "IN PROGRESS".toList <:+: verdictLine i.text elapsed (.notrun r) ↔
      "IN PROGRESS".toList <:+: r.text := by
  have hin := not_inProgress_infix_leadingWords "NOTRUN".toList i elapsed "s:".toList (by decide)
    (by decide) (by decide)
  have hlast : ¬ "IN".toList <:+ leadingWords "NOTRUN".toList i.text elapsed "s:".toList := by
    intro h
    have hc : "s:".toList <:+ leadingWords "NOTRUN".toList i.text elapsed "s:".toList := by
      unfold leadingWords
      simp only [← List.append_assoc, ← List.cons_append]
      exact List.suffix_append _ _
    exact absurd (List.suffix_of_suffix_length_le h hc (by decide)) (by decide)
  have hp : "IN PROGRESS".toList = "IN".toList ++ ' ' :: "PROGRESS".toList := by decide
  rw [verdictLine_notrun, hp, Text.two_words_infix_append_cons_iff (by decide) (by decide), ← hp]
  simp only [hin, hlast, false_and, false_or, or_false]

/-- Reading back a `NOTRUN` line gives `Notrun` unless the name or the reason holds a
word of an earlier search. -/
theorem fromStr_notrun_iff (i : SubtestName) (elapsed : ℤ) (r : SkipReason) :
    TestStatus.fromStr (Supervisor.statusFile (verdictLine i.text elapsed (.notrun r))) =
        .notrun ↔ Verdict.Unambiguous i.text (.notrun r) := by
  have hinfix {w : Text} {c : Char} (hw : ' ' ∉ w) (hc : c ∈ w) (hu : c.isUpper = true)
      (ht : c ∉ "s:".toList) : w <:+: verdictLine i.text elapsed (.notrun r) ↔
        (w <:+: "NOTRUN".toList ∨ w <:+: i.text) ∨ w <:+: r.text := by
    rw [verdictLine_notrun, Text.infix_append_cons_iff hw,
      infix_leadingWords_iff _ _ _ _ _ hw hc hu ht]
  have hpassed := hinfix (w := "PASSED".toList) (c := 'P') (by decide) (by decide) (by decide)
    (by decide)
  have hfailed := hinfix (w := "FAILED".toList) (c := 'F') (by decide) (by decide) (by decide)
    (by decide)
  have hnotrun := hinfix (w := "NOTRUN".toList) (c := 'N') (by decide) (by decide) (by decide)
    (by decide)
  have hword₁ : ¬ "PASSED".toList <:+: "NOTRUN".toList := by decide
  have hword₂ : ¬ "FAILED".toList <:+: "NOTRUN".toList := by decide
  rw [fromStr_statusFile, TestStatus.search_eq_notrun_iff (statusFile_ne_nil _)]
  simp only [infix_statusFile_inProgress, infix_statusFile_passed, infix_statusFile_failed,
    infix_statusFile_notrun, inProgress_infix_notrun_iff, hpassed, hfailed, hnotrun, hword₁, hword₂,
    List.infix_rfl, false_or, true_or, and_true, not_or, Verdict.Unambiguous]
  constructor
  · rintro ⟨hin, ⟨hip, hrp⟩, hif, hrf⟩
    exact ⟨⟨hip, hif⟩, hin, hrp, hrf⟩
  · rintro ⟨⟨hip, hif⟩, hin, hrp, hrf⟩
    exact ⟨hin, ⟨hip, hrp⟩, hif, hrf⟩

/-- Guest, supervisor and daemon agree on a verdict exactly when the free text of the
line is unambiguous. -/
theorem fromStr_statusFile_verdictLine_iff (i : SubtestName) (elapsed : ℤ) (v : Verdict) :
    TestStatus.fromStr (Supervisor.statusFile (verdictLine i.text elapsed v)) = v.status ↔
      v.Unambiguous i.text := by
  cases v with
  | passed => simpa [Verdict.Unambiguous, Verdict.status] using fromStr_passed i elapsed
  | failed => exact fromStr_failed_iff i elapsed
  | notrun r => exact fromStr_notrun_iff i elapsed r

/-- A test skipped because a mount failed is recorded as a failed test. -/
theorem fromStr_skipped_mount_failed :
    ¬ ∀ (i : SubtestName) (elapsed : ℤ) (v : Verdict),
      TestStatus.fromStr (Supervisor.statusFile (verdictLine i.text elapsed v)) = v.status := by
  intro h
  have hline := h ⟨"quota".toList, by decide, by simp [Char.isWhitespace]⟩ 3
    (.notrun ⟨"mount FAILED".toList, by decide⟩)
  exact absurd hline (by decide +kernel)

end RunTests
end KtestCi
