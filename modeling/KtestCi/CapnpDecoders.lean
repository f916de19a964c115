import KtestCi.DurationHistory
import KtestCi.ResultsCapnp

/-!
# Decoders of the published files

Three readers take values straight from a file: `parse_test_results`, `branchlog_parse` and
`test_stats`. Each passes some errors on and unwraps others. A text field of a message whose
structure is valid may hold any bytes, and a start time any 64-bit number; on what exactly
each reader panics is read off its loop.
-/

namespace KtestCi

/-- A text field: a text, bytes that are not UTF-8, or a pointer that does not lead to a text. -/
inductive RawText where
  | text (t : Text)
  | notUtf8
  | badPointer
  deriving DecidableEq

def RawText.toText : RawText → Option Text
  | text t => some t
  | notUtf8 | badPointer => none

namespace Parsed

def Returns {α : Type} : Parsed α → Prop
  | .ok _ | .error => True
  | .panicked => False

end Parsed

structure BranchEntry where
  commitId : Text
  message : Text
  passed : UInt32
  failed : UInt32
  notrun : UInt32
  failedToRun : UInt32
  inprogress : UInt32
  unknown : UInt32
  duration : UInt64
  deriving DecidableEq

structure RawBranchEntry where
  commitId : RawText
  message : RawText
  passed : UInt32
  failed : UInt32
  notrun : UInt32
  failedToRun : UInt32
  inprogress : UInt32
  unknown : UInt32
  duration : UInt64
  deriving DecidableEq

inductive BranchLogFile where
  | message (entries : List RawBranchEntry)
  | unreadable

/-- One entry of `branchlog_parse`: both texts are unwrapped. -/
def readBranchEntry (e : RawBranchEntry) : Option BranchEntry := do
  let commitId ← e.commitId.toText
  let message ← e.message.toText
  return ⟨commitId, message, e.passed, e.failed, e.notrun, e.failedToRun, e.inprogress, e.unknown,
    e.duration⟩

def branchlogParse : BranchLogFile → Parsed (List BranchEntry)
  | .unreadable => .error
  | .message entries => match entries.mapM readBranchEntry with
    | some result => .ok result
    | none => .panicked

structure RawDuration where
  test : RawText
  nr : UInt64
  passed : UInt64
  failed : UInt64
  duration : UInt64
  deriving DecidableEq

inductive DurationsFile where
  | message (entries : List RawDuration)
  | unreadable

/-- The binary search of `test_stats` on a message. An entry without a text ends the search
without a result, one whose text is not UTF-8 is unwrapped. -/
def searchRawDurations (entries : List RawDuration) (fullTest : Text) :
    ℕ → ℕ → ℕ → Parsed (Option TestStats)
  | 0, _, _ => .ok none
  | fuel + 1, l, r =>
    if l < r then
      let m := l + (r - l) / 2
      match entries[m]? with
      | none => .ok none
      | some d => match d.test with
        | .badPointer => .ok none
        | .notUtf8 => .panicked
        | .text test => match compare fullTest test with
          | .lt => searchRawDurations entries fullTest fuel l m
          | .gt => searchRawDurations entries fullTest fuel (m + 1) r
          | .eq => .ok (some ⟨d.nr, d.passed, d.failed, d.duration⟩)
    else .ok none

def rawTestStats (durations : Option DurationsFile) (test subtest kernel env : Text) :
    Parsed (Option TestStats) :=
  match durations with
  | none | some .unreadable => .ok none
  | some (.message entries) =>
    searchRawDurations entries (subtestResultKey test subtest kernel env) entries.length 0 entries.length

/-- An entry that the loop of `parse_test_results` gets past. -/
structure ResultEntry.Readable (e : ResultEntry) : Prop where
  status : (TestStatus.ofOrdinal e.status).isSome = true
  starttime : validTimestamp e.starttime = true
  name : e.name.isSome = true

def TimestampsFit (entries : List ResultEntry) : Prop :=
  ∀ before e after, entries = before ++ e :: after → (∀ e' ∈ before, e'.Readable) →
    (TestStatus.ofOrdinal e.status).isSome = true → validTimestamp e.starttime = true

theorem readEntry_eq_ok_iff (e : ResultEntry) : (∃ kr, readEntry e = .ok kr) ↔ e.Readable := by
  constructor
  · rintro ⟨kr, h⟩
    unfold readEntry at h
    split at h
    · simp at h
    next status hstatus =>
      split_ifs at h with htime
      split at h
      · simp at h
      next name hname => exact ⟨by simp [hstatus], htime, by simp [hname]⟩
  · rintro ⟨hstatus, htime, hname⟩
    obtain ⟨status, hstatus⟩ := Option.isSome_iff_exists.mp hstatus
    obtain ⟨name, hname⟩ := Option.isSome_iff_exists.mp hname
    simp [readEntry, hstatus, htime, hname]

theorem readEntry_eq_panicked_iff (e : ResultEntry) : readEntry e = .panicked ↔
    (TestStatus.ofOrdinal e.status).isSome = true ∧ validTimestamp e.starttime = false := by
  cases hstatus : TestStatus.ofOrdinal e.status with
  | none => simp [readEntry, hstatus]
  | some status =>
    cases htime : validTimestamp e.starttime with
    | false => simp [readEntry, hstatus, htime]
    | true => cases hname : e.name <;> simp [readEntry, hstatus, htime, hname]

theorem timestampsFit_cons_iff (e : ResultEntry) (es : List ResultEntry) :
    TimestampsFit (e :: es) ↔ readEntry e ≠ .panicked ∧ (e.Readable → TimestampsFit es) := by
  constructor
  · intro h
    refine ⟨?_, fun he before e' after hsplit hbefore => ?_⟩
    · rw [ne_eq, readEntry_eq_panicked_iff]
      rintro ⟨hstatus, htime⟩
      simp [h [] e es rfl (by simp) hstatus] at htime
    · exact h (e :: before) e' after (by rw [hsplit]; rfl) (List.forall_mem_cons.mpr ⟨he, hbefore⟩)
  · rintro ⟨hpanic, hrest⟩ before e' after hsplit hbefore hstatus
    cases before with
    | nil =>
      obtain ⟨rfl, rfl⟩ := List.cons.inj hsplit
      by_contra htime
      exact hpanic ((readEntry_eq_panicked_iff _).mpr ⟨hstatus, by simpa using htime⟩)
    | cons b before =>
      obtain ⟨rfl, rfl⟩ := List.cons.inj hsplit
      rw [List.forall_mem_cons] at hbefore
      exact hrest hbefore.1 before e' after rfl hbefore.2 hstatus

theorem readEntries_returns_iff (es : List ResultEntry) (results : TestResultsMap) :
    (readEntries es results).Returns ↔ TimestampsFit es := by
  induction es generalizing results with
  | nil => simp [readEntries, Parsed.Returns, TimestampsFit]
  | cons e es ih =>
    rw [timestampsFit_cons_iff, ← readEntry_eq_ok_iff]
    cases he : readEntry e with
    | ok kr => simp [readEntries, he, ih]
    | error => simp [readEntries, he, Parsed.Returns]
    | panicked => simp [readEntries, he, Parsed.Returns]

def CapnpFile.entries : CapnpFile → List ResultEntry
  | .message m => m.entries
  | .unreadable => []

theorem parseTestResults_returns_iff (f : CapnpFile) :
    (parseTestResults f).Returns ↔ TimestampsFit f.entries := by
  cases f with
  | unreadable => simp [parseTestResults, Parsed.Returns, CapnpFile.entries, TimestampsFit]
  | message m =>
    rw [CapnpFile.entries, ← readEntries_returns_iff m.entries ∅, parseTestResults]
    cases readEntries m.entries ∅ <;> simp [Parsed.Returns]

def BranchLogFile.entries : BranchLogFile → List RawBranchEntry
  | .message entries => entries
  | .unreadable => []

def RawBranchEntry.TextsFit (e : RawBranchEntry) : Prop :=
  e.commitId.toText.isSome = true ∧ e.message.toText.isSome = true

theorem readBranchEntry_isSome_iff (e : RawBranchEntry) :
    (readBranchEntry e).isSome = true ↔ e.TextsFit := by
  unfold readBranchEntry RawBranchEntry.TextsFit
  cases e.commitId.toText <;> cases e.message.toText <;> simp

theorem branchlogParse_returns_iff (f : BranchLogFile) :
    (branchlogParse f).Returns ↔ ∀ e ∈ f.entries, e.TextsFit := by
  cases f with
  | unreadable => simp [branchlogParse, Parsed.Returns, BranchLogFile.entries]
  | message entries =>
    simp only [BranchLogFile.entries, ← readBranchEntry_isSome_iff, ← TextMap.mapM_isSome_iff]
    rw [branchlogParse]
    cases entries.mapM readBranchEntry <;> simp [Parsed.Returns]

/-- The entries that the search for a key between two bounds looks at. -/
inductive Probes (entries : List RawDuration) (key : Text) : ℕ → ℕ → RawDuration → Prop
  | middle {l r : ℕ} {d : RawDuration} (hlr : l < r) (hd : entries[l + (r - l) / 2]? = some d) :
      Probes entries key l r d
  | left {l r : ℕ} {d d' : RawDuration} {test : Text} (hlr : l < r)
      (hd : entries[l + (r - l) / 2]? = some d) (htest : d.test = .text test)
      (hcmp : compare key test = .lt) (hrest : Probes entries key l (l + (r - l) / 2) d') :
      Probes entries key l r d'
  | right {l r : ℕ} {d d' : RawDuration} {test : Text} (hlr : l < r)
      (hd : entries[l + (r - l) / 2]? = some d) (htest : d.test = .text test)
      (hcmp : compare key test = .gt) (hrest : Probes entries key (l + (r - l) / 2 + 1) r d') :
      Probes entries key l r d'

theorem probes_iff {entries : List RawDuration} {key : Text} {l r : ℕ} {d : RawDuration} (hlr : l < r)
    (hd : entries[l + (r - l) / 2]? = some d) (d' : RawDuration) :
    Probes entries key l r d' ↔ d' = d ∨ ∃ test, d.test = .text test ∧
      ((compare key test = .lt ∧ Probes entries key l (l + (r - l) / 2) d') ∨
        (compare key test = .gt ∧ Probes entries key (l + (r - l) / 2 + 1) r d')) := by
  constructor
  · rintro (⟨-, hd'⟩ | ⟨-, hd', htest, hcmp, hrest⟩ | ⟨-, hd', htest, hcmp, hrest⟩)
    · exact .inl (Option.some.inj (hd'.symm.trans hd))
    · obtain rfl := Option.some.inj (hd'.symm.trans hd)
      exact .inr ⟨_, htest, .inl ⟨hcmp, hrest⟩⟩
    · obtain rfl := Option.some.inj (hd'.symm.trans hd)
      exact .inr ⟨_, htest, .inr ⟨hcmp, hrest⟩⟩
  · rintro (rfl | ⟨test, htest, ⟨hcmp, hrest⟩ | ⟨hcmp, hrest⟩⟩)
    · exact .middle hlr hd
    · exact .left hlr hd htest hcmp hrest
    · exact .right hlr hd htest hcmp hrest

theorem searchRawDurations_returns_iff (entries : List RawDuration) (key : Text) (fuel l r : ℕ)
    (hfuel : r - l ≤ fuel) : (searchRawDurations entries key fuel l r).Returns ↔
      ∀ d, Probes entries key l r d → d.test ≠ .notUtf8 := by
  have hdone : ∀ {l r : ℕ}, ¬ l < r → ∀ d, Probes entries key l r d → d.test ≠ .notUtf8 := by
    rintro l r hlr d (⟨h, -⟩ | ⟨h, -⟩ | ⟨h, -⟩) <;> exact absurd h hlr
  induction fuel generalizing l r with
  | zero => exact iff_of_true trivial (hdone (by omega))
  | succ fuel ih =>
    rw [searchRawDurations]
    split_ifs with hlr
    · have hm : l + (r - l) / 2 < r := by omega
      cases hd : entries[l + (r - l) / 2]? with
      | none =>
        simp only [hd]
        refine iff_of_true trivial ?_
        rintro d (⟨-, hd'⟩ | ⟨-, hd', -⟩ | ⟨-, hd', -⟩) <;> simp [hd] at hd'
      | some d =>
        simp only [hd, probes_iff hlr hd]
        cases htest : d.test with
        | badPointer => simp [Parsed.Returns, htest]
        | notUtf8 => simp [Parsed.Returns, htest]
        | text test =>
          cases hcmp : compare key test with
          | lt =>
            have hleft := ih l (l + (r - l) / 2) (by omega)
            simp [hleft, htest, hcmp]
          | gt =>
            have hright := ih (l + (r - l) / 2 + 1) r (by omega)
            simp [hright, htest, hcmp]
          | eq => simp [Parsed.Returns, htest, hcmp]
    · exact iff_of_true trivial (hdone hlr)

def DurationsFile.entries : DurationsFile → List RawDuration
  | .message entries => entries
  | .unreadable => []

theorem rawTestStats_returns_iff (durations : Option DurationsFile) (test subtest kernel env : Text) :
    (rawTestStats durations test subtest kernel env).Returns ↔
      ∀ file ∈ durations, ∀ d, Probes file.entries (subtestResultKey test subtest kernel env) 0
        file.entries.length d → d.test ≠ .notUtf8 := by
  cases durations with
  | none => simp [rawTestStats, Parsed.Returns]
  | some file =>
    simp only [Option.mem_def, Option.some.injEq, forall_eq']
    cases file with
    | unreadable =>
      refine iff_of_true trivial ?_
      rintro d (⟨h, -⟩ | ⟨h, -⟩ | ⟨h, -⟩) <;> exact absurd h (by decide)
    | message entries => exact searchRawDurations_returns_iff _ _ _ _ _ (by omega)

/-- When the decoders return: no start time that is read is out of range, no text of a branch
log is broken, and the search meets no text that is not UTF-8. -/
theorem decoders_return_iff (results : CapnpFile) (branch : BranchLogFile)
    (durations : Option DurationsFile) (test subtest kernel env : Text) :
    ((parseTestResults results).Returns ∧ (branchlogParse branch).Returns ∧
        (rawTestStats durations test subtest kernel env).Returns) ↔
      TimestampsFit results.entries ∧ (∀ e ∈ branch.entries, e.TextsFit) ∧
        ∀ file ∈ durations, ∀ d, Probes file.entries (subtestResultKey test subtest kernel env) 0
          file.entries.length d → d.test ≠ .notUtf8 := by
  rw [parseTestResults_returns_iff, branchlogParse_returns_iff, rawTestStats_returns_iff]

/-- A start time after the year 262142, and texts that are not UTF-8. -/
theorem decoders_panic :
    ¬ (parseTestResults (.message ⟨[⟨some "fs.quota".toList, 8210266876800, 5, 1⟩], none, none⟩)).Returns ∧
    ¬ (branchlogParse (.message [⟨.text "c".toList, .notUtf8, 1, 0, 0, 0, 0, 0, 5⟩])).Returns ∧
    ¬ (rawTestStats (some (.message [⟨.notUtf8, 1, 1, 0, 5⟩])) "fs.ktest".toList "quota".toList
      [] []).Returns := by
  refine ⟨?_, ?_, ?_⟩
  · have hpanic : parseTestResults
        (.message ⟨[⟨some "fs.quota".toList, 8210266876800, 5, 1⟩], none, none⟩) = .panicked := rfl
    rw [hpanic]
    exact id
  · exact id
  · exact id

end KtestCi
