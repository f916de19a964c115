import KtestCi.SupervisorRecording

/-!
# The loop body, one operation at a time

A signal handler can run between any two operations of the read loop's body. The body is
therefore cut at its writes: truncating a file and filling it are two operations. Run to the
end, they are what `processLine` does to a line, and they make the same records.
-/

namespace KtestCi.Supervisor

/-- A step of the loop body on the state; `none` where the supervisor dies. -/
abbrev Operation := State → Option State

/-- An operation that is skipped unless a test's log is open. -/
def Operation.whileOpen (op : Operation) : Operation := fun s =>
  if s.currentTestLog.isSome then op s else some s

/-- The second half of `write_test_file`, after the file has been truncated. -/
def fillTestFile (f : TestFile) (content : State → Text) : Operation := fun s =>
  some { s with files := s.files.write s.testName f (content s) }

def testEndOps (o : Options) (now : ℕ) : List Operation :=
  [fun s => testFileOpen o s .duration,
   fillTestFile .duration (fun s => Text.ofInt ((now : ℤ) - s.currentTestStart)),
   fun s => some (setTimeout { s with currentTestLog := none } o.defaultTimeout)]

def testStartOps (o : Options) (newTest : Text) (now : ℕ) : List Operation :=
  [fun s => some { s with currentTest := some newTest, currentTestStart := now },
   fun s => (testFileOpen o s .log).map (fun s => { s with currentTestLog := some newTest }),
   fun s => testFileOpen o s .status,
   fillTestFile .status (fun _ => "TEST FAILED\n".toList),
   fun s => some (setTimeout s o.defaultTimeout)]

def startTestsOps (o : Options) (newTest : Option Text) (now : ℕ) : List Operation :=
  match newTest with
  | none => []
  | some t => (testEndOps o now).map Operation.whileOpen ++ testStartOps o t now

def endTestsOps (o : Options) (line : Text) (now : ℕ) : List Operation :=
  if testIsEnding line then
    ((fun s => testFileOpen o s .status) :: fillTestFile .status (fun _ => line ++ ['\n']) ::
      testEndOps o now).map Operation.whileOpen
  else []

/-- The loop body on a line that has been read, up to the `-S` and `-F` logic. -/
def bodyOps (o : Options) (l : ConsoleLine) : List Operation :=
  let line := strim l.raw
  (fun s => some (readWatchdog s line)) ::
    (startTestsOps o (testIsStarting line) l.now ++
      (fun s => some (logLine s l.loggedAt line)) :: (fun s => some (readMonitorCmd s l line)) ::
        endTestsOps o line l.now)

def runOps : List Operation → State → Option State
  | [], s => some s
  | op :: ops, s => (op s).bind (runOps ops)

/-- The end of the loop body: the loop is left, or the next line is read. -/
def afterBody (o : Options) (l : ConsoleLine) (s : State) : Outcome :=
  match stops o (strim l.raw) with
  | some ret => .leaves s ret
  | none => .next (if o.exitOnFailure && reportsFault (strim l.raw) then { s with alarm := 5 } else s)

theorem runOps_append (ops ops' : List Operation) (s : State) :
    runOps (ops ++ ops') s = (runOps ops s).bind (runOps ops') := by
  induction ops generalizing s with
  | nil => rfl
  | cons op ops ih =>
    cases h : op s with
    | none => simp [runOps, h]
    | some s' => simp [runOps, h, ih]

@[simp] theorem runOps_nil (s : State) : runOps [] s = some s := rfl

@[simp] theorem runOps_cons (op : Operation) (ops : List Operation) (s : State) :
    runOps (op :: ops) s = (op s).bind (runOps ops) := rfl

theorem open_bind_fill (o : Options) (s : State) (f : TestFile) (content : State → Text)
    (h : ∀ files, content { s with files := files } = content s) :
    (testFileOpen o s f).bind (fillTestFile f content) = writeTestFile o s f (content s) := by
  unfold writeTestFile testFileOpen
  cases o.prepared s.testName with
  | false => rfl
  | true => simp only [if_true, Option.bind_some, Option.map_some, fillTestFile, h]

theorem runOps_testStartOps (o : Options) (newTest : Text) (now : ℕ) (s : State) :
    runOps (testStartOps o newTest now) s = testStart o s newTest now := by
  simp only [testStartOps, testStart, runOps_cons, Option.bind_some, Option.bind_eq_bind]
  cases testFileOpen o { s with currentTest := some newTest, currentTestStart := now } .log with
  | none => rfl
  | some s' =>
    have hfill := open_bind_fill o { s' with currentTestLog := some newTest } .status
      (fun _ => "TEST FAILED\n".toList) (fun _ => rfl)
    simp only [Option.map_some, Option.bind_some, ← hfill, runOps_cons]
    cases testFileOpen o { s' with currentTestLog := some newTest } .status with
    | none => rfl
    | some s'' => rfl

theorem runOps_whileOpen_closed {s : State} (h : s.currentTestLog = none) (ops : List Operation) :
    runOps (ops.map Operation.whileOpen) s = some s := by
  induction ops with
  | nil => rfl
  | cons op ops ih => simpa [Operation.whileOpen, h] using ih

theorem testFileOpen_currentTestLog {o : Options} {s s' : State} {f : TestFile}
    (h : testFileOpen o s f = some s') : s'.currentTestLog = s.currentTestLog := by
  unfold testFileOpen at h
  split_ifs at h
  rw [← Option.some.inj h]

theorem runOps_whileOpen_write {o : Options} {s : State} {t : Text} (h : s.currentTestLog = some t)
    (f : TestFile) (content : State → Text) (hc : ∀ files, content { s with files := files } = content s)
    (ops : List Operation) :
    runOps (((fun s => testFileOpen o s f) :: fillTestFile f content :: ops).map Operation.whileOpen) s =
      (writeTestFile o s f (content s)).bind (runOps (ops.map Operation.whileOpen)) := by
  rw [← open_bind_fill o s f content hc]
  simp only [List.map_cons, runOps_cons, Operation.whileOpen, h, Option.isSome_some, if_true]
  cases hopen : testFileOpen o s f with
  | none => rfl
  | some s' =>
    have hlog : s'.currentTestLog = some t := (testFileOpen_currentTestLog hopen).trans h
    simp [Operation.whileOpen, hlog]

theorem writeTestFile_currentTestLog {o : Options} {s s' : State} {f : TestFile} {content : Text}
    (h : writeTestFile o s f content = some s') : s'.currentTestLog = s.currentTestLog := by
  obtain ⟨s₁, hopen, rfl⟩ := Option.map_eq_some_iff.mp h
  exact (testFileOpen_currentTestLog hopen :)

theorem runOps_whileOpen_testEndOps {s : State} {t : Text} (o : Options) (now : ℕ)
    (h : s.currentTestLog = some t) :
    runOps ((testEndOps o now).map Operation.whileOpen) s = testEnd o s now := by
  unfold testEndOps testEnd
  rw [runOps_whileOpen_write h _ _ (fun _ => rfl), Option.bind_eq_bind]
  cases hwrite : writeTestFile o s .duration (Text.ofInt ((now : ℤ) - s.currentTestStart)) with
  | none => rfl
  | some s' => simp [Operation.whileOpen, writeTestFile_currentTestLog hwrite, h]

theorem runOps_startTestsOps (o : Options) (newTest : Option Text) (now : ℕ) (s : State) :
    runOps (startTestsOps o newTest now) s = startTests o s newTest now := by
  cases newTest with
  | none => rfl
  | some t =>
    simp only [startTestsOps, startTests, runOps_append, Option.bind_eq_bind]
    cases hopen : s.currentTestLog with
    | none =>
      rw [runOps_whileOpen_closed hopen]
      exact runOps_testStartOps o t now s
    | some t₀ =>
      rw [runOps_whileOpen_testEndOps o now hopen]
      exact congrArg (Option.bind _) (funext (runOps_testStartOps o t now))

theorem runOps_endTestsOps (o : Options) (line : Text) (now : ℕ) (s : State) :
    runOps (endTestsOps o line now) s = endTests o s line now := by
  unfold endTestsOps endTests
  cases hend : testIsEnding line with
  | false => simp
  | true =>
    cases hopen : s.currentTestLog with
    | none =>
      rw [if_pos rfl, runOps_whileOpen_closed hopen]
      rfl
    | some t =>
      simp only [if_true, Option.isSome_some, Bool.and_self, Option.bind_eq_bind]
      rw [runOps_whileOpen_write hopen _ _ (fun _ => rfl)]
      cases hwrite : writeTestFile o s .status (line ++ ['\n']) with
      | none => rfl
      | some s' =>
        exact runOps_whileOpen_testEndOps o now ((writeTestFile_currentTestLog hwrite).trans hopen)

/-- The operations of the body are those of `processLine`. -/
theorem processLine_eq_runOps (o : Options) (s : State) (l : ConsoleLine) :
    processLine o s l = ((runOps (bodyOps o l) s).elim .dies (afterBody o l)) := by
  simp only [bodyOps, processLine, runOps_cons, runOps_append, Option.bind_some, runOps_startTestsOps]
  cases startTests o (readWatchdog s (strim l.raw)) (testIsStarting (strim l.raw)) l.now with
  | none => rfl
  | some s₁ =>
    simp only [Option.bind_some, runOps_cons, runOps_endTestsOps]
    cases endTests o (readMonitorCmd (logLine s₁ l.loggedAt (strim l.raw)) l (strim l.raw))
        (strim l.raw) l.now with
    | none => rfl
    | some s₂ => rfl

/-- The directories of the tests that a line starts are there. -/
def ConsoleLine.Prepared (o : Options) (l : ConsoleLine) : Prop :=
  ∀ t, l.starting = some t → o.prepared t = true

variable {o : Options} {files : Files} {lines : List ConsoleLine} {s : State} {l : ConsoleLine}

theorem Records.runOps_bodyOps (h : Records files lines s) (hprep : ∀ l ∈ lines, l.Prepared o)
    (hl : l.Prepared o) : ∃ s', runOps (bodyOps o l) s = some s' ∧ Records files (lines ++ [l]) s' := by
  have hprep' : ∀ t, (∃ l ∈ lines, l.starting = some t) → o.prepared t = true := by
    rintro t ⟨l', hl', ht⟩
    exact hprep l' hl' t ht
  have hstep : ∃ s', processLine { o with exitOnSuccess := false, exitOnFailure := false } s l = .next s' ∧
      Records files (lines ++ [l]) s' := by
    cases hstart : l.starting with
    | none => exact h.step_line hprep' hstart (by simp [stops])
    | some t => exact h.step_start hprep' hstart (hl t hstart) (by simp [stops])
  obtain ⟨s', hproc, hrec⟩ := hstep
  rw [processLine_eq_runOps] at hproc
  have hops : bodyOps { o with exitOnSuccess := false, exitOnFailure := false } l = bodyOps o l := rfl
  rw [hops] at hproc
  cases hrun : runOps (bodyOps o l) s with
  | none => simp [hrun] at hproc
  | some s₁ =>
    rw [hrun] at hproc
    obtain rfl : s₁ = s' := by simpa [afterBody, stops] using hproc
    exact ⟨s₁, rfl, hrec⟩

theorem runOps_bodyOps_of_not_prepared (h : ¬ l.Prepared o) (s : State) :
    runOps (bodyOps o l) s = none := by
  obtain ⟨t, ht, hprep⟩ : ∃ t, l.starting = some t ∧ o.prepared t = false := by
    simpa [ConsoleLine.Prepared] using h
  have hstart : ∀ s, testStart o s t l.now = none := by
    intro s
    have hopen : testFileOpen o { s with currentTest := some t, currentTestStart := l.now } .log = none := by
      simp [testFileOpen, State.testName, hprep]
    simp [testStart, hopen]
  have hstarting : testIsStarting (strim l.raw) = some t := l.testIsStarting_strim.trans ht
  simp only [bodyOps, runOps_cons, runOps_append, Option.bind_some, runOps_startTestsOps, hstarting,
    startTests, hstart, Option.bind_eq_bind, Option.bind_fun_none, ite_self, Option.bind_none]

def uptoStop (o : Options) : List ConsoleLine → List ConsoleLine
  | [] => []
  | l :: ls => if (stops o (strim l.raw)).isSome then [l] else l :: uptoStop o ls

theorem uptoStop_append {pre : List ConsoleLine} (h : ∀ l ∈ pre, stops o (strim l.raw) = none)
    (rest : List ConsoleLine) : uptoStop o (pre ++ rest) = pre ++ uptoStop o rest := by
  induction pre with
  | nil => rfl
  | cons a pre ih =>
    rw [List.forall_mem_cons] at h
    simp [uptoStop, h.1, ih h.2]

theorem mem_uptoStop_cons (l : ConsoleLine) (ls : List ConsoleLine) : l ∈ uptoStop o (l :: ls) := by
  unfold uptoStop
  split_ifs <;> simp

end KtestCi.Supervisor
