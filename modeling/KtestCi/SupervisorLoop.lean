import KtestCi.SupervisorLines
import Mathlib.Algebra.Order.Ring.Int

/-!
# The supervisor's read loop

One console line is processed at a time. The state holds the globals of the source
together with the contents of the files it writes: per test a `log`, a `status` and a
`duration`, and the full log. A line comes with everything the outside contributes
while it is processed: the clock readings, and what the monitor socket answers when
the line asks for it. `stdout` receives exactly what the full log receives and is not
kept separately.
-/

namespace KtestCi.Supervisor

/-- The command line options, and the result directories `<dir>/<name>.<test>` that
exist when the supervisor starts. -/
structure Options where
  exitOnSuccess : Bool
  exitOnFailure : Bool
  defaultTimeout : ℕ
  prepared : Text → Bool

/-- The files written into a test's result directory. -/
inductive TestFile where
  | log | status | duration
  deriving DecidableEq, Repr

/-- One line as `getline` returns it, with the clock readings (seconds since the start)
at the head of the loop and in `log_line`, and the lines rendered from the monitor: those
that follow a first connection and those that follow the command. -/
structure ConsoleLine where
  raw : Text
  now : ℕ
  loggedAt : ℕ
  connects : Bool
  banner : List (ℕ × Text)
  replies : List (ℕ × Text)

/-- The connection to the monitor socket, which is opened on first use and given up
for good when that fails. -/
inductive Monitor where
  | unused | connected | failed
  deriving DecidableEq, Repr

abbrev Files := Text → TestFile → Option Text

structure State where
  files : Files
  logfile : Text
  currentTest : Option Text
  currentTestStart : ℕ
  /-- The test whose log file is open. -/
  currentTestLog : Option Text
  timeoutStage : ℕ
  timeout : ℕ
  /-- The argument of the last `alarm` call; `0` cancels. -/
  alarm : ℕ
  monitor : Monitor

def initial (o : Options) (files : Files) : State where
  files := files
  logfile := []
  currentTest := none
  currentTestStart := 0
  currentTestLog := none
  timeoutStage := 0
  timeout := o.defaultTimeout
  alarm := o.defaultTimeout % 2 ^ 32
  monitor := .unused

def Files.write (files : Files) (t : Text) (f : TestFile) (content : Text) : Files :=
  fun t' f' => if t' = t ∧ f' = f then some content else files t' f'

def Files.append (files : Files) (t : Text) (f : TestFile) (content : Text) : Files :=
  files.write t f ((files t f).getD [] ++ content)

@[simp] theorem Files.write_self (files : Files) (t : Text) (f : TestFile) (c : Text) :
    files.write t f c t f = some c := by simp [Files.write]

theorem Files.write_of_ne_test (files : Files) {t t' : Text} (h : t' ≠ t) (f : TestFile) (c : Text) :
    files.write t f c t' = files t' := by
  funext f'
  simp [Files.write, h]

theorem Files.write_of_ne_file (files : Files) (t t' : Text) {f f' : TestFile} (h : f' ≠ f)
    (c : Text) : files.write t f c t' f' = files t' f' := by
  simp [Files.write, h]

/-- The elapsed seconds in front of a logged line, padded to five digits. -/
def stamp (now : ℕ) : Text :=
  let digits := (toString now).toList
  List.replicate (5 - digits.length) '0' ++ digits

def stamped (now : ℕ) (msg : Text) : Text := stamp now ++ ' ' :: (msg ++ ['\n'])

/-- Send text to the open test log, if there is one, and to the full log. -/
def State.emit (s : State) (output : Text) : State :=
  { s with
    files := match s.currentTestLog with
      | some t => s.files.append t .log output
      | none => s.files
    logfile := s.logfile ++ output }

def logLine (s : State) (now : ℕ) (msg : Text) : State := s.emit (stamped now msg)

def setTimeout (s : State) (newTimeout : ℕ) : State :=
  { s with timeoutStage := 0, timeout := newTimeout, alarm := newTimeout % 2 ^ 32 }

/-- The value of a leading run of decimal digits. -/
def digitsValue (acc : ℕ) : Text → ℕ
  | [] => acc
  | c :: cs => if c.isDigit then digitsValue (acc * 10 + (c.toNat - '0'.toNat)) cs else acc

/-- The C library's `atol`, saturating at the bounds of `long`. -/
def atol (t : Text) : ℤ :=
  match t.dropWhile (fun c => c = ' ' || ('\t' ≤ c && c ≤ '\r')) with
  | '-' :: cs => max (-(2 ^ 63)) (-(digitsValue 0 cs : ℤ))
  | '+' :: cs => min (2 ^ 63 - 1) (digitsValue 0 cs : ℤ)
  | cs => min (2 ^ 63 - 1) (digitsValue 0 cs : ℤ)

def readWatchdog (s : State) (line : Text) : State :=
  match strStartsWith line "WATCHDOG ".toList with
  | some newWatchdog => setTimeout s (atol newWatchdog % 2 ^ 64).toNat
  | none => s

/-- The prompt, the connect banner and the echo of the command are not logged. -/
def monitorLogLine (cmd : Option Text) (s : State) (reply : ℕ × Text) : State :=
  let l := reply.2
  if l.isEmpty || (strStartsWith l "(qemu)".toList).isSome || (strStartsWith l "QEMU ".toList).isSome
      || (strStartsWith l "Type 'help'".toList).isSome then s
  else if cmd.any (fun cmd => (strStartsWith cmd l).isSome) then s
  else logLine s reply.1 ("qemu monitor: ".toList ++ l)

def monitorDrain (s : State) (cmd : Option Text) (rendered : List (ℕ × Text)) : State :=
  rendered.foldl (monitorLogLine cmd) s

def monitorSend (s : State) (l : ConsoleLine) (cmd : Text) : State :=
  match s.monitor with
  | .failed => s
  | .connected => monitorDrain s (some cmd) l.replies
  | .unused =>
    if l.connects then
      monitorDrain (monitorDrain { s with monitor := .connected } none l.banner) (some cmd) l.replies
    else { s with monitor := .failed }

def readMonitorCmd (s : State) (l : ConsoleLine) (line : Text) : State :=
  match strStartsWith line "QEMU_MONITOR ".toList with
  | some cmd => monitorSend s l cmd
  | none => s

/-- The directory name the current test's files are opened under. -/
def State.testName (s : State) : Text := s.currentTest.getD "(null)".toList

/-- `test_file_open` truncates the file; without the directory the supervisor dies. -/
def testFileOpen (o : Options) (s : State) (f : TestFile) : Option State :=
  if o.prepared s.testName then some { s with files := s.files.write s.testName f [] } else none

def writeTestFile (o : Options) (s : State) (f : TestFile) (content : Text) : Option State :=
  (testFileOpen o s f).map (fun s => { s with files := s.files.write s.testName f content })

def testStart (o : Options) (s : State) (newTest : Text) (now : ℕ) : Option State := do
  let s := { s with currentTest := some newTest, currentTestStart := now }
  let s ← testFileOpen o s .log
  let s ← writeTestFile o { s with currentTestLog := some newTest } .status "TEST FAILED\n".toList
  return setTimeout s o.defaultTimeout

def testEnd (o : Options) (s : State) (now : ℕ) : Option State := do
  let s ← writeTestFile o s .duration (Text.ofInt ((now : ℤ) - s.currentTestStart))
  return setTimeout { s with currentTestLog := none } o.defaultTimeout

/-- Close the log of the previous test if a test starts, then open the new one. -/
def startTests (o : Options) (s : State) (newTest : Option Text) (now : ℕ) : Option State :=
  match newTest with
  | none => some s
  | some t => do
    let s ← if s.currentTestLog.isSome then testEnd o s now else some s
    testStart o s t now

/-- Record an end marker that arrives while a log is open. -/
def endTests (o : Options) (s : State) (line : Text) (now : ℕ) : Option State :=
  if s.currentTestLog.isSome && testIsEnding line then do
    let s ← writeTestFile o s .status (line ++ ['\n'])
    testEnd o s now
  else some s

/-- The line on which the `-S` and `-F` logic leaves the loop, with the exit status. -/
def stops (o : Options) (line : Text) : Option ℕ :=
  if o.exitOnFailure && (strStartsWith line "TEST FAILED".toList).isSome then some 1
  else if o.exitOnFailure && line.contains "FAILED TIMEOUT".toList then some 1
  else if o.exitOnSuccess && (strStartsWith line "TEST SUCCESS".toList).isSome then some 0
  else none

/-- A fault of the guest kernel, after which the supervisor waits no longer than 5 s. -/
def reportsFault (line : Text) : Bool :=
  line.contains "Kernel panic".toList || line.contains "BUG:".toList ||
    line.contains "kernel BUG at".toList

inductive Outcome where
  | next (s : State)
  | leaves (s : State) (ret : ℕ)
  | dies

/-- The body of the read loop. -/
def processLine (o : Options) (s : State) (l : ConsoleLine) : Outcome :=
  let line := strim l.raw
  match startTests o (readWatchdog s line) (testIsStarting line) l.now with
  | none => .dies
  | some s =>
    let s := readMonitorCmd (logLine s l.loggedAt line) l line
    match endTests o s line l.now with
    | none => .dies
    | some s =>
      match stops o line with
      | some ret => .leaves s ret
      | none => .next (if o.exitOnFailure && reportsFault line then { s with alarm := 5 } else s)

/-- Processing a sequence of lines, up to the first one that ends the loop. -/
def runLines (o : Options) (s : State) : List ConsoleLine → Outcome
  | [] => .next s
  | l :: ls => match processLine o s l with
    | .next s => runLines o s ls
    | out => out

theorem runLines_concat (o : Options) (s : State) (ls : List ConsoleLine) (l : ConsoleLine) :
    runLines o s (ls ++ [l]) = match runLines o s ls with
      | .next s => processLine o s l
      | out => out := by
  induction ls generalizing s with
  | nil => cases h : processLine o s l <;> simp [runLines, h]
  | cons a ls ih =>
    cases h : processLine o s a with
    | next s' => simp [runLines, h, ih]
    | leaves s' ret => simp [runLines, h]
    | dies => simp [runLines, h]

def startMarker : Text := "========= TEST   ".toList

def endMarkers : List Text :=
  ["========= PASSED ".toList, "========= FAILED ".toList, "========= NOTRUN".toList]

namespace ConsoleLine

def text (l : ConsoleLine) : Text := l.raw.rdropWhile (fun c => c = '\n' || c = '\r')

/-- The test a start line names, spelled as in the name of its result directory. -/
def starting (l : ConsoleLine) : Option Text :=
  if startMarker.isPrefixOf l.text then
    some ((l.text.drop startMarker.length).map (fun c => if c = '/' then '.' else c))
  else none

def ending (l : ConsoleLine) : Bool := endMarkers.any (fun marker => marker.isPrefixOf l.text)

theorem strim_raw (l : ConsoleLine) : strim l.raw = l.text := rfl

theorem testIsStarting_strim (l : ConsoleLine) : testIsStarting (strim l.raw) = l.starting := by
  change Option.map _ (if startMarker.isPrefixOf l.text then _ else none) = _
  unfold starting
  split_ifs
  · rfl
  · rfl

theorem testIsEnding_strim (l : ConsoleLine) : testIsEnding (strim l.raw) = l.ending := by
  rw [Bool.eq_iff_iff, testIsEnding, strim_raw]
  simp [ending, endMarkers, or_assoc]

theorem ending_eq_false_of_starting (l : ConsoleLine) {t : Text} (h : l.starting = some t) :
    l.ending = false := by
  rw [← l.testIsEnding_strim]
  exact testIsEnding_eq_false_of_starting (l.testIsStarting_strim.trans h)

end ConsoleLine

/-- The elapsed seconds in decimal, filled up to five digits. -/
def elapsed (seconds : ℕ) : Text := (Nat.toDigits 10 seconds).leftpad 5 '0'

theorem stamp_eq_elapsed (now : ℕ) : stamp now = elapsed now := by
  simp [stamp, elapsed, List.leftpad]

end KtestCi.Supervisor
