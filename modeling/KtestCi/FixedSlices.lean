import KtestCi.CapnpDecoders
import KtestCi.GcResults

/-!
# Slices at fixed byte offsets

Three programs cut texts at a fixed number of bytes: `ci-status` the subject and the id of a
commit, `gc-results` and `rm-results` the names of the output directory. Each checks only
that the text is long enough, and a character across the offset is a panic.
-/

namespace KtestCi

def firstLine (message : Text) : Text :=
  if '\n' ∈ message then
    let line := message.takeWhile (fun c => c != '\n')
    if line.getLast? = some '\r' then line.dropLast else line
  else message

/-- The columns of one line of the log, in the order in which they are printed. -/
structure LogRow where
  commit : Text
  passed : UInt32
  failed : UInt32
  failedToRun : UInt32
  inprogress : UInt32
  duration : UInt64
  subject : Text

/-- At most 50 bytes of the first line. -/
def logSubject (e : BranchEntry) : Option Text :=
  let subject := firstLine e.message
  if subject.utf8Len > 50 then subject.utf8Take 50 else some subject

def logCommit (e : BranchEntry) : Option Text :=
  if e.commitId.utf8Len ≥ 12 then e.commitId.utf8Take 12 else some e.commitId

/-- One round of the loop of `render_log`. -/
def logRow (e : BranchEntry) : Option LogRow := do
  let subject ← logSubject e
  let commit ← logCommit e
  return ⟨commit, e.passed, e.failed, e.failedToRun, e.inprogress, e.duration, subject⟩

inductive LogOutput where
  | json (entries : List BranchEntry)
  | noResults (branch : Text)
  | table (rows : List LogRow)

/-- What `ci-status` prints; `none` is a panic. -/
def renderLog (entries : List BranchEntry) (branch : Text) (json : Bool) : Option LogOutput :=
  if json then some (.json entries)
  else if entries.isEmpty then some (.noResults branch)
  else (entries.mapM logRow).map .table

/-- An entry of the output directory, as `rm-results` finds it: no directory, a directory that
cannot be read, or the names in it. -/
structure RmEntry where
  name : Text
  dir : Option (Option (List Text))

/-- The names that `rm-results` passes over. -/
def rmSkips (name : Text) : Bool :=
  ["jobs.".toList, "workers".toList, "user_stats".toList, "test_durations".toList, "fetch".toList].any
      (fun p => p.isPrefixOf name) ||
    ".lock".toList.isSuffixOf name || ".new".toList.isSuffixOf name ||
    ".capnp".toList.isSuffixOf name || decide (name.utf8Len < 40)

/-- The results of one commit directory. -/
def rmCollect (testPattern : Text → Bool) (entry : RmEntry) : Parsed (List (Text × Text)) :=
  match entry.dir with
  | none => .ok []
  | some none => .error
  | some (some names) => .ok ((names.filter testPattern).map (fun n => (entry.name, n)))

/-- One round of the loop of `find_matching_results`. -/
def rmMatchEntry (testPattern : Text → Bool) (commits : Option (List Text)) (entry : RmEntry) :
    Parsed (List (Text × Text)) :=
  if rmSkips entry.name then .ok []
  else match commits with
    | none => rmCollect testPattern entry
    | some commits => match entry.name.utf8Take 40 with
      | none => .panicked
      | some commit => if commits.contains commit then rmCollect testPattern entry else .ok []

def findMatchingResults (testPattern : Text → Bool) (commits : Option (List Text)) :
    List RmEntry → Parsed (List (Text × Text))
  | [] => .ok []
  | entry :: entries => match rmMatchEntry testPattern commits entry with
    | .ok found => match findMatchingResults testPattern commits entries with
      | .ok rest => .ok (found ++ rest)
      | .error => .error
      | .panicked => .panicked
    | .error => .error
    | .panicked => .panicked

def RmEntry.splits (commits : Option (List Text)) (entry : RmEntry) : Bool :=
  commits.isSome && !rmSkips entry.name && entry.name.splitsAt 40

/-- A directory of a wanted commit that cannot be read, at which the search ends. -/
def RmEntry.unreadable (commits : Option (List Text)) (entry : RmEntry) : Bool :=
  !rmSkips entry.name && commits.all (fun cs => (entry.name.utf8Take 40).any cs.contains) &&
    decide (entry.dir = some none)

theorem isSome_slice_iff (n : ℕ) (t : Text) :
    (if n ≤ t.utf8Len then t.utf8Take n else some t).isSome = true ↔ t.splitsAt n = false := by
  rw [Text.splitsAt]
  split_ifs with h
  · cases t.utf8Take n <;> simp [h]
  · simp [h]

theorem utf8Take_utf8Len (t : Text) : t.utf8Take t.utf8Len = some t :=
  Text.utf8Take_eq_some_iff.mpr ⟨List.prefix_rfl, rfl⟩

theorem isSome_strict_slice_iff (n : ℕ) (t : Text) :
    (if t.utf8Len > n then t.utf8Take n else some t).isSome = true ↔ t.splitsAt n = false := by
  rw [← isSome_slice_iff]
  rcases lt_trichotomy n t.utf8Len with h | rfl | h
  · rw [if_pos h, if_pos h.le]
  · rw [if_neg (lt_irrefl _), if_pos le_rfl, utf8Take_utf8Len]
  · rw [if_neg h.not_gt, if_neg h.not_ge]

theorem logRow_isSome_iff (e : BranchEntry) : (logRow e).isSome = true ↔
    (firstLine e.message).splitsAt 50 = false ∧ e.commitId.splitsAt 12 = false := by
  have hsubject : (logSubject e).isSome = true ↔ (firstLine e.message).splitsAt 50 = false :=
    isSome_strict_slice_iff 50 (firstLine e.message)
  have hcommit : (logCommit e).isSome = true ↔ e.commitId.splitsAt 12 = false :=
    isSome_slice_iff 12 e.commitId
  rw [← hsubject, ← hcommit, logRow]
  cases logSubject e <;> cases logCommit e <;> simp

theorem renderLog_isSome_iff (entries : List BranchEntry) (branch : Text) (json : Bool) :
    (renderLog entries branch json).isSome = true ↔ json = true ∨
      ∀ e ∈ entries, (firstLine e.message).splitsAt 50 = false ∧ e.commitId.splitsAt 12 = false := by
  simp only [← logRow_isSome_iff, ← TextMap.mapM_isSome_iff]
  rw [renderLog]
  cases json with
  | true => simp
  | false =>
    cases entries with
    | nil => simp
    | cons e entries =>
      rw [if_neg Bool.false_ne_true, if_neg (by simp), Option.isSome_map]
      simp

theorem resultIsLive_isSome_iff (commits : List Text) (fname : Text) :
    (resultIsLive commits (.utf8 fname)).isSome = true ↔ fname.splitsAt 40 = false := by
  rw [← isSome_slice_iff, resultIsLive]
  by_cases h : fname.utf8Len < 40
  · simp [h, Nat.not_le.mpr h]
  · simp [h, Nat.le_of_not_lt h]

/-- What one round comes to. -/
theorem rmMatchEntry_cases (testPattern : Text → Bool) (commits : Option (List Text)) (entry : RmEntry) :
    (entry.splits commits = true ∧ entry.unreadable commits = false ∧
      rmMatchEntry testPattern commits entry = .panicked) ∨
    (entry.splits commits = false ∧ entry.unreadable commits = true ∧
      rmMatchEntry testPattern commits entry = .error) ∨
    (entry.splits commits = false ∧ entry.unreadable commits = false ∧
      ∃ found, rmMatchEntry testPattern commits entry = .ok found) := by
  unfold RmEntry.splits RmEntry.unreadable rmMatchEntry
  cases hskips : rmSkips entry.name with
  | true => simp
  | false =>
    have hlong : 40 ≤ entry.name.utf8Len := by
      simp only [rmSkips, Bool.or_eq_false_iff, decide_eq_false_iff_not, not_lt] at hskips
      exact hskips.2
    have hcollect : (entry.dir = some none ∧ rmCollect testPattern entry = .error) ∨
        (entry.dir ≠ some none ∧ ∃ found, rmCollect testPattern entry = .ok found) := by
      unfold rmCollect
      rcases entry.dir with _ | _ | names <;> simp
    cases commits with
    | none => rcases hcollect with ⟨hdir, h⟩ | ⟨hdir, found, h⟩ <;> simp [hdir, h]
    | some commits =>
      cases htake : entry.name.utf8Take 40 with
      | none => simp [Text.splitsAt, htake, hlong]
      | some commit =>
        by_cases hmem : commit ∈ commits
        · rcases hcollect with ⟨hdir, h⟩ | ⟨hdir, found, h⟩ <;> simp [Text.splitsAt, htake, hdir, h, hmem]
        · simp [Text.splitsAt, htake, hmem]

theorem findMatchingResults_returns_iff (testPattern : Text → Bool) (commits : Option (List Text))
    (entries : List RmEntry) : (findMatchingResults testPattern commits entries).Returns ↔
      ∀ d ∈ entries.takeWhile (fun d => !d.unreadable commits), d.splits commits = false := by
  induction entries with
  | nil => simp [findMatchingResults, Parsed.Returns]
  | cons d entries ih =>
    rw [findMatchingResults, List.takeWhile_cons]
    rcases rmMatchEntry_cases testPattern commits d with ⟨hsplits, hunreadable, h⟩ |
      ⟨-, hunreadable, h⟩ | ⟨hsplits, hunreadable, found, h⟩
    · simp [h, hunreadable, hsplits, Parsed.Returns]
    · simp [h, hunreadable, Parsed.Returns]
    · rw [h, hunreadable]
      simp only [Bool.not_false, if_true, List.forall_mem_cons, hsplits, true_and, ← ih]
      cases findMatchingResults testPattern commits entries <;> simp [Parsed.Returns]

/-- No slice panics exactly if no character lies across the offset where a text is cut. -/
theorem fixedSlices_iff (log : List BranchEntry) (branch : Text) (json : Bool) (live : List Text)
    (names : List Text) (testPattern : Text → Bool) (commits : Option (List Text))
    (entries : List RmEntry) :
    ((renderLog log branch json).isSome = true ∧
      (∀ fname ∈ names, (resultIsLive live (.utf8 fname)).isSome = true) ∧
      (findMatchingResults testPattern commits entries).Returns) ↔
    ((json = true ∨ ∀ e ∈ log,
        (firstLine e.message).splitsAt 50 = false ∧ e.commitId.splitsAt 12 = false) ∧
      (∀ fname ∈ names, fname.splitsAt 40 = false) ∧
      ∀ d ∈ entries.takeWhile (fun d => !d.unreadable commits), d.splits commits = false) := by
  rw [renderLog_isSome_iff, findMatchingResults_returns_iff]
  simp only [resultIsLive_isSome_iff]

def accentedEntry : BranchEntry :=
  ⟨"c0ffee".toList, List.replicate 49 'a' ++ ['é'], 1, 0, 0, 0, 0, 0, 30⟩

def accentedName : Text := List.replicate 39 'a' ++ ['é']

/-- All three programs panic. -/
theorem fixedSlices_panic : renderLog [accentedEntry] "master".toList false = none ∧
    resultIsLive [] (.utf8 accentedName) = none ∧
    ¬ (findMatchingResults (fun _ => true) (some []) [⟨accentedName, none⟩]).Returns := by
  refine ⟨?_, ?_, ?_⟩
  · rw [← Option.not_isSome_iff_eq_none, renderLog_isSome_iff]
    decide +kernel
  · rw [← Option.not_isSome_iff_eq_none, resultIsLive_isSome_iff]
    decide +kernel
  · rw [findMatchingResults_returns_iff]
    decide +kernel

end KtestCi
