import KtestCi.DaemonJobs
import KtestCi.ResultsStore

/-!
# Running a claimed batch

`run_ktest_job` and its inner function as a machine over the shared store. One step is one
access to something shared: a call of the store, a status file, a command on the worker.
What a command, a write or a pull does is part of the event, so every step may fail. The
log files of a batch are not part of the machine: writing them changes neither a status nor
a duration.
-/

namespace KtestCi
namespace BatchRun

/-- A job in an executor's hands. -/
structure ClaimedJob where
  id : ℕ
  payload : JobParams

/-- A claimed batch; the parameters are those of its first job. -/
structure Batch where
  head : ClaimedJob
  tail : List ClaimedJob

namespace Batch

def jobs (b : Batch) : List ClaimedJob := b.head :: b.tail

/-- `batch[0].payload`. -/
def params (b : Batch) : JobParams := b.head.payload

def commit (b : Batch) : Text := b.params.commit

def subtests (b : Batch) : List Text := b.jobs.map (fun j => j.payload.subtest)

def key (b : Batch) (subtest : Text) : Text :=
  subtestResultKey b.params.test subtest b.params.kernel b.params.env

def keys (b : Batch) : List Text := b.subtests.map b.key

/-- All jobs are of one repository, commit, kernel, environment and test. -/
def Homogeneous (b : Batch) : Prop :=
  ∀ j ∈ b.jobs, j.payload.repo = b.params.repo ∧ j.payload.commit = b.params.commit ∧
    j.payload.kernel = b.params.kernel ∧ j.payload.env = b.params.env ∧
      j.payload.test = b.params.test

instance (b : Batch) : Decidable b.Homogeneous := by
  unfold Homogeneous
  infer_instance

theorem Homogeneous.resultKey {b : Batch} (h : b.Homogeneous) {j : ClaimedJob} (hj : j ∈ b.jobs) :
    j.payload.resultKey = b.key j.payload.subtest := by
  obtain ⟨-, -, hkernel, henv, htest⟩ := h j hj
  rw [JobParams.resultKey, key, hkernel, henv, htest]

theorem mem_keys_iff {b : Batch} {k : Text} :
    k ∈ b.keys ↔ ∃ j ∈ b.jobs, b.key j.payload.subtest = k := by
  simp [keys, subtests]

end Batch

def bootBatch (repoUrl : Text) : Batch :=
  ⟨⟨0, ⟨"linux".toList, "c0ffee".toList, [], [], "boot.ktest".toList, "boot".toList, repoUrl, [],
    "/out".toList⟩⟩, []⟩

inductive TaskError where
  | retry (msg : Text)
  | fatal (msg : Text)

/-- How a command ended: with an exit code, by a signal, or not at all. -/
inductive CommandOutcome where
  | exited (code : Option ℤ)
  | notRun (error : Text)

/-- `{:?}` of an exit code. -/
def debugCode : Option ℤ → Text
  | none => "None".toList
  | some code => "Some(".toList ++ Text.ofInt code ++ [')']

/-- `run_step`: a step that must succeed. -/
def runStep (desc : Text) : CommandOutcome → Option TaskError
  | .notRun error => some (.retry (desc ++ ": ".toList ++ error))
  | .exited code =>
    if code = some 0 then none
    else some (.retry (desc ++ ": ssh exited ".toList ++ debugCode code))

/-- A write of a status file: done, or failed with what it left of the directory. -/
inductive StatusWrite where
  | written (mtime : ℤ)
  | failed (remains : Option ResultDir)

def writeStatus (o : OutputDir) (commit key text : Text) : StatusWrite → OutputDir
  | .written mtime =>
    let dir := (o.resultDir commit key).getD ∅
    o.setResultDir commit key (dir.insert "status".toList ⟨some text, mtime⟩)
  | .failed none => o
  | .failed (some dir) => o.setResultDir commit key dir

/-- Where a batch is. -/
inductive Stage where
  | start
  | marking (todo : List Text) (now : ℤ) (marks : TestResultsMap)
  | checkout (now : ℤ)
  | syncKtest (now : ℤ)
  | buildSupervisor (now : ℤ)
  | prepare (now : ℤ)
  | supervise (remaining : List Text) (didClean : Bool) (now : ℤ)
  | pulling (remaining : List Text) (didClean : Bool) (now : ℤ)
  | collecting (todo remaining next : List Text) (verdicts : TestResultsMap) (didClean : Bool) (now : ℤ)
  | cleaning (remaining : List Text) (now : ℤ)
  | teardown (result : Option TaskError)
  | failing (todo : List ClaimedJob) (updates : TestResultsMap) (now : ℤ) (error : TaskError)
  | failWrite (job : ClaimedJob) (todo : List ClaimedJob) (updates : TestResultsMap) (now : ℤ)
      (error : TaskError)
  | returned (result : Option TaskError)

/-- What happens next. -/
inductive Event where
  | start (now : ℤ)
  | mark (w : StatusWrite)
  | update (io : CapnpWrite)
  | command (outcome : CommandOutcome)
  | pull (dirs : Text → Option ResultDir) (outcome : CommandOutcome)
  | read
  | teardown (now : ℤ)
  | lookup
  | failWrite (w : StatusWrite)

def resume (remaining : List Text) (didClean : Bool) (now : ℤ) : Stage :=
  if remaining.isEmpty then .teardown none else .supervise remaining didClean now

def afterStep (error : Option TaskError) (next : Stage) : Stage :=
  match error with
  | some e => .teardown (some e)
  | none => next

def pullDirs (o : OutputDir) (commit : Text) (dirs : Text → Option ResultDir) : List Text → OutputDir
  | [] => o
  | key :: keys =>
    let o := match dirs key with
      | none => o
      | some dir => o.setResultDir commit key dir
    pullDirs o commit dirs keys

/-- After the verdicts of a VM run: done, another run, one clean retry, or no progress. -/
def afterVerdicts (remaining next : List Text) (didClean : Bool) (now : ℤ) : Stage :=
  if next.length = remaining.length then
    if didClean then
      .teardown (some (.retry ("run completed no subtests: ".toList ++ [' '].intercalate remaining)))
    else .cleaning remaining now
  else resume next didClean now

variable (b : Batch)

/-- The status of a subtest as pulled; without a readable one it was not reached. -/
def pulledResult (s : TestResultsStore) (subtest : Text) (now : ℤ) : TestResult :=
  ((s.outputDir.resultDir b.commit (b.key subtest)).bind readTestResult).getD ⟨.inprogress, now, 0⟩

def step (s : TestResultsStore) : Stage → Event → Option (TestResultsStore × Stage)
  | .start, .start now =>
    if b.params.repoUrl.isEmpty then
      some (s, .teardown (some (.fatal
        ("repo ".toList ++ b.params.repo ++ " not configured".toList))))
    else some (s, .marking b.subtests now ∅)
  | .marking (st :: todo) now marks, .mark w =>
    some ({ s with outputDir := writeStatus s.outputDir b.commit (b.key st) "IN PROGRESS\n".toList w },
      .marking todo now (marks.insert (b.key st) ⟨.inprogress, now, 0⟩))
  | .marking [] now marks, .update io => some (s.update io b.commit marks, .checkout now)
  | .checkout now, .command outcome => some (s, afterStep (runStep "checkout".toList outcome)
      (if b.params.ktestUrl.isEmpty then .buildSupervisor now else .syncKtest now))
  | .syncKtest now, .command outcome =>
    some (s, afterStep (runStep "sync ktest".toList outcome) (.buildSupervisor now))
  | .buildSupervisor now, .command outcome =>
    some (s, afterStep (runStep "build supervisor".toList outcome) (.prepare now))
  | .prepare now, .command outcome =>
    some (s, afterStep (runStep "prepare".toList outcome) (resume b.subtests false now))
  | .supervise remaining didClean now, .command outcome => match outcome with
    | .notRun e => some (s, .teardown (some (.retry ("running supervisor: ".toList ++ e))))
    | .exited _ => some (s, .pulling remaining didClean now)
  | .pulling remaining didClean now, .pull dirs outcome =>
    let s := { s with outputDir := pullDirs s.outputDir b.commit dirs (remaining.map b.key) }
    match outcome with
    | .notRun e => some (s, .teardown (some (.retry ("pulling results: ".toList ++ e))))
    | .exited code =>
      if code = some 0 then some (s, .collecting remaining remaining [] ∅ didClean now)
      else some (s, .teardown (some (.retry ("pulling results: exited ".toList ++ debugCode code))))
  | .collecting (st :: todo) remaining next verdicts didClean now, .read =>
    let r := pulledResult b s st now
    let next := if r.status = .inprogress then next ++ [st] else next
    some (s, .collecting todo remaining next (verdicts.insert (b.key st) r) didClean now)
  | .collecting [] remaining next verdicts didClean now, .update io =>
    some (s.update io b.commit verdicts, afterVerdicts remaining next didClean now)
  | .cleaning remaining now, .command outcome => match outcome with
    | .notRun e => some (s, .teardown (some (.retry ("git clean: ".toList ++ e))))
    | .exited _ => some (s, resume remaining true now)
  | .teardown result, .teardown now => match result with
    | none => some (s, .returned none)
    | some e => some (s, .failing b.jobs ∅ now e)
  | .failing (j :: todo) updates now e, .lookup =>
    if s.lookup b.commit j.payload.resultKey = some .inprogress then
      some (s, .failWrite j todo updates now e)
    else some (s, .failing todo updates now e)
  | .failWrite j todo updates now e, .failWrite w =>
    some ({ s with outputDir :=
        writeStatus s.outputDir b.commit j.payload.resultKey "FAILED TO RUN\n".toList w },
      .failing todo (updates.insert j.payload.resultKey ⟨.failedToRun, now, 0⟩) now e)
  | .failing [] updates _ e, .update io => some (s.update io b.commit updates, .returned (some e))
  | _, _ => none

inductive Setup : Stage → Text → Stage → Prop
  | checkout (now : ℤ) (h : b.params.ktestUrl ≠ []) :
      Setup (.checkout now) "checkout".toList (.syncKtest now)
  | checkoutNoSync (now : ℤ) (h : b.params.ktestUrl = []) :
      Setup (.checkout now) "checkout".toList (.buildSupervisor now)
  | syncKtest (now : ℤ) : Setup (.syncKtest now) "sync ktest".toList (.buildSupervisor now)
  | buildSupervisor (now : ℤ) :
      Setup (.buildSupervisor now) "build supervisor".toList (.prepare now)
  | prepare (now : ℤ) :
      Setup (.prepare now) "prepare".toList (.supervise b.subtests false now)

/-- Everything that a step can do. -/
inductive Moves (s : TestResultsStore) : Stage → Event → TestResultsStore → Stage → Prop
  | fatal (now : ℤ) (e : TaskError) (h : b.params.repoUrl = []) :
      Moves s .start (.start now) s (.teardown (some e))
  | start (now : ℤ) (h : b.params.repoUrl ≠ []) :
      Moves s .start (.start now) s (.marking b.subtests now ∅)
  | mark (st : Text) (todo : List Text) (now : ℤ) (marks : TestResultsMap) (w : StatusWrite) :
      Moves s (.marking (st :: todo) now marks) (.mark w)
        { s with outputDir := writeStatus s.outputDir b.commit (b.key st) "IN PROGRESS\n".toList w }
        (.marking todo now (marks.insert (b.key st) ⟨.inprogress, now, 0⟩))
  | marked (now : ℤ) (marks : TestResultsMap) (io : CapnpWrite) :
      Moves s (.marking [] now marks) (.update io) (s.update io b.commit marks) (.checkout now)
  | setup {st next : Stage} {desc : Text} (outcome : CommandOutcome) (h : Setup b st desc next)
      (hok : runStep desc outcome = none) : Moves s st (.command outcome) s next
  | setupFailed {st next : Stage} {desc : Text} (outcome : CommandOutcome) (e : TaskError)
      (h : Setup b st desc next) (hfail : runStep desc outcome = some e) :
      Moves s st (.command outcome) s (.teardown (some e))
  | supervised (remaining : List Text) (didClean : Bool) (now : ℤ) (code : Option ℤ) :
      Moves s (.supervise remaining didClean now) (.command (.exited code)) s
        (.pulling remaining didClean now)
  | superviseFailed (remaining : List Text) (didClean : Bool) (now : ℤ) (msg : Text) (e : TaskError) :
      Moves s (.supervise remaining didClean now) (.command (.notRun msg)) s (.teardown (some e))
  | pulled (remaining : List Text) (didClean : Bool) (now : ℤ) (dirs : Text → Option ResultDir) :
      Moves s (.pulling remaining didClean now) (.pull dirs (.exited (some 0)))
        { s with outputDir := pullDirs s.outputDir b.commit dirs (remaining.map b.key) }
        (.collecting remaining remaining [] ∅ didClean now)
  | pullFailed (remaining : List Text) (didClean : Bool) (now : ℤ) (dirs : Text → Option ResultDir)
      (outcome : CommandOutcome) (e : TaskError) (h : outcome ≠ .exited (some 0)) :
      Moves s (.pulling remaining didClean now) (.pull dirs outcome)
        { s with outputDir := pullDirs s.outputDir b.commit dirs (remaining.map b.key) }
        (.teardown (some e))
  | read (st : Text) (todo remaining next : List Text) (verdicts : TestResultsMap) (didClean : Bool)
      (now : ℤ) : Moves s (.collecting (st :: todo) remaining next verdicts didClean now) .read s
        (.collecting todo remaining
          (if (pulledResult b s st now).status = .inprogress then next ++ [st] else next)
          (verdicts.insert (b.key st) (pulledResult b s st now)) didClean now)
  | recorded (remaining next : List Text) (verdicts : TestResultsMap) (didClean : Bool) (now : ℤ)
      (io : CapnpWrite) : Moves s (.collecting [] remaining next verdicts didClean now) (.update io)
        (s.update io b.commit verdicts) (afterVerdicts remaining next didClean now)
  | cleaned (remaining : List Text) (now : ℤ) (code : Option ℤ) :
      Moves s (.cleaning remaining now) (.command (.exited code)) s (resume remaining true now)
  | cleanFailed (remaining : List Text) (now : ℤ) (msg : Text) (e : TaskError) :
      Moves s (.cleaning remaining now) (.command (.notRun msg)) s (.teardown (some e))
  | succeed (now : ℤ) : Moves s (.teardown none) (.teardown now) s (.returned none)
  | fail (now : ℤ) (e : TaskError) :
      Moves s (.teardown (some e)) (.teardown now) s (.failing b.jobs ∅ now e)
  | lookupInprogress (j : ClaimedJob) (todo : List ClaimedJob) (updates : TestResultsMap) (now : ℤ)
      (e : TaskError) (h : s.lookup b.commit j.payload.resultKey = some .inprogress) :
      Moves s (.failing (j :: todo) updates now e) .lookup s (.failWrite j todo updates now e)
  | lookupOther (j : ClaimedJob) (todo : List ClaimedJob) (updates : TestResultsMap) (now : ℤ)
      (e : TaskError) (h : s.lookup b.commit j.payload.resultKey ≠ some .inprogress) :
      Moves s (.failing (j :: todo) updates now e) .lookup s (.failing todo updates now e)
  | failWrite (j : ClaimedJob) (todo : List ClaimedJob) (updates : TestResultsMap) (now : ℤ)
      (e : TaskError) (w : StatusWrite) : Moves s (.failWrite j todo updates now e) (.failWrite w)
        { s with outputDir :=
            writeStatus s.outputDir b.commit j.payload.resultKey "FAILED TO RUN\n".toList w }
        (.failing todo (updates.insert j.payload.resultKey ⟨.failedToRun, now, 0⟩) now e)
  | failed (updates : TestResultsMap) (now : ℤ) (e : TaskError) (io : CapnpWrite) :
      Moves s (.failing [] updates now e) (.update io) (s.update io b.commit updates)
        (.returned (some e))

theorem subtests_ne_nil : b.subtests ≠ [] := by
  simp [Batch.subtests, Batch.jobs]

theorem moves_setup {s : TestResultsStore} {st next : Stage} {desc : Text} (outcome : CommandOutcome)
    (h : Setup b st desc next) :
    Moves b s st (.command outcome) s (afterStep (runStep desc outcome) next) := by
  cases hr : runStep desc outcome with
  | none => exact .setup outcome h hr
  | some e => exact .setupFailed outcome e h hr

theorem moves_of_step {s s' : TestResultsStore} {st st' : Stage} {e : Event}
    (h : step b s st e = some (s', st')) : Moves b s st e s' st' := by
  unfold step at h
  split at h
  · split_ifs at h with hurl
    · obtain ⟨rfl, rfl⟩ := Prod.mk.inj (Option.some.inj h)
      exact .fatal _ _ (List.isEmpty_iff.mp hurl)
    · obtain ⟨rfl, rfl⟩ := Prod.mk.inj (Option.some.inj h)
      exact .start _ (mt List.isEmpty_iff.mpr hurl)
  · obtain ⟨rfl, rfl⟩ := Prod.mk.inj (Option.some.inj h)
    exact .mark _ _ _ _ _
  · obtain ⟨rfl, rfl⟩ := Prod.mk.inj (Option.some.inj h)
    exact .marked _ _ _
  · obtain ⟨rfl, rfl⟩ := Prod.mk.inj (Option.some.inj h)
    apply moves_setup
    split_ifs with hurl
    · exact .checkoutNoSync _ (List.isEmpty_iff.mp hurl)
    · exact .checkout _ (mt List.isEmpty_iff.mpr hurl)
  · obtain ⟨rfl, rfl⟩ := Prod.mk.inj (Option.some.inj h)
    exact moves_setup b _ (.syncKtest _)
  · obtain ⟨rfl, rfl⟩ := Prod.mk.inj (Option.some.inj h)
    exact moves_setup b _ (.buildSupervisor _)
  · obtain ⟨rfl, rfl⟩ := Prod.mk.inj (Option.some.inj h)
    simp only [resume, List.isEmpty_iff, subtests_ne_nil, if_false]
    exact moves_setup b _ (.prepare _)
  · split at h
    · obtain ⟨rfl, rfl⟩ := Prod.mk.inj (Option.some.inj h)
      exact .superviseFailed _ _ _ _ _
    · obtain ⟨rfl, rfl⟩ := Prod.mk.inj (Option.some.inj h)
      exact .supervised _ _ _ _
  · split at h
    · obtain ⟨rfl, rfl⟩ := Prod.mk.inj (Option.some.inj h)
      exact .pullFailed _ _ _ _ _ _ (by simp)
    · split_ifs at h with hcode
      · obtain ⟨rfl, rfl⟩ := Prod.mk.inj (Option.some.inj h)
        rw [hcode]
        exact .pulled _ _ _ _
      · obtain ⟨rfl, rfl⟩ := Prod.mk.inj (Option.some.inj h)
        exact .pullFailed _ _ _ _ _ _ (by simpa using hcode)
  · obtain ⟨rfl, rfl⟩ := Prod.mk.inj (Option.some.inj h)
    exact .read _ _ _ _ _ _ _
  · obtain ⟨rfl, rfl⟩ := Prod.mk.inj (Option.some.inj h)
    exact .recorded _ _ _ _ _ _
  · split at h
    · obtain ⟨rfl, rfl⟩ := Prod.mk.inj (Option.some.inj h)
      exact .cleanFailed _ _ _ _
    · obtain ⟨rfl, rfl⟩ := Prod.mk.inj (Option.some.inj h)
      exact .cleaned _ _ _
  · split at h
    · obtain ⟨rfl, rfl⟩ := Prod.mk.inj (Option.some.inj h)
      exact .succeed _
    · obtain ⟨rfl, rfl⟩ := Prod.mk.inj (Option.some.inj h)
      exact .fail _ _
  · split_ifs at h with hlookup
    · obtain ⟨rfl, rfl⟩ := Prod.mk.inj (Option.some.inj h)
      exact .lookupInprogress _ _ _ _ _ hlookup
    · obtain ⟨rfl, rfl⟩ := Prod.mk.inj (Option.some.inj h)
      exact .lookupOther _ _ _ _ _ hlookup
  · obtain ⟨rfl, rfl⟩ := Prod.mk.inj (Option.some.inj h)
    exact .failWrite _ _ _ _ _ _
  · obtain ⟨rfl, rfl⟩ := Prod.mk.inj (Option.some.inj h)
    exact .failed _ _ _ _
  · simp at h

end BatchRun
end KtestCi
