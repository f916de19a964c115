import KtestCi.BranchResults
import KtestCi.FixedSlices
import KtestCi.GapRows

/-!
# The views of a branch

The results of a branch are shown three times: `ci_log` has a page and a JSON form, and
`ci-status log` reads the same files itself. The page has a row for each tested commit and
counts the untested ones in between; the other two have entries for the tested commits only.
-/

namespace KtestCi

open GapPrefix GapRows

/-- The results of a commit with a status, as `ci_log` counts them. -/
def countResults (tests : TestResultsMap) (status : TestStatus) : ℕ :=
  tests.toList.countP (fun t => t.2.status == status)

/-- The same number as a `u32`. -/
def countStatus (tests : TestResultsMap) (status : TestStatus) : UInt32 :=
  UInt32.ofNat (countResults tests status)

def totalDuration (tests : TestResultsMap) : UInt64 :=
  tests.toList.foldl (fun total t => total + t.2.duration) 0

def branchEntry (r : CommitResults) : BranchEntry where
  duration := totalDuration r.tests
  passed := countStatus r.tests .passed
  failed := countStatus r.tests .failed
  notrun := countStatus r.tests .notrun
  failedToRun := countStatus r.tests .failedToRun
  inprogress := countStatus r.tests .inprogress
  unknown := countStatus r.tests .unknown
  commitId := r.id
  message := r.message

def branchEntries (results : List CommitResults) : List BranchEntry :=
  (results.filter (fun r => !r.tests.isEmpty)).map branchEntry

/-- `none` is a panic. The source repeats the body of `branch_entries` here. -/
def generateBranchLog (repo : GitHistory) (ktest : Ktestrc) (read : Text → Parsed TestResultsMap)
    (user branch : Text) : Option (Except Text (List BranchEntry)) :=
  (branchGetResults repo ktest read (some user) (some branch) none (fun _ => true)).map
    (fun results => results.map branchEntries)

/-- A request for the log of a branch. `pattern` is the text of the test filter. -/
structure LogRequest where
  user : Text
  branch : Text
  pattern : Text
  testsMatching : Text → Bool
  json : Bool

structure SingleTestStats where
  completed : UInt64
  passed : UInt64
  failed : UInt64
  duration : UInt64
  deriving DecidableEq

/-- The loop of `single_test_stats`; `none` is its early return. -/
def singleTestLoop : Option Text → SingleTestStats → List (Text × TestResult) → Option SingleTestStats
  | _, stats, [] => some stats
  | testName, stats, (name, result) :: results =>
    if testName.any (fun testName => testName != name) then none
    else
      match result.status with
      | .passed => singleTestLoop (some name) { stats with
          passed := stats.passed + 1, completed := stats.completed + 1,
          duration := stats.duration + result.duration } results
      | .failed => singleTestLoop (some name) { stats with
          failed := stats.failed + 1, completed := stats.completed + 1,
          duration := stats.duration + result.duration } results
      | _ => singleTestLoop (some name) stats results

def singleTestStats (commits : List CommitResults) : Option SingleTestStats :=
  (singleTestLoop none ⟨0, 0, 0, 0⟩ (commits.flatMap (fun r => r.tests.toList))).filter
    (fun stats => stats.completed != 0)

/-- A row of the table for several tests: the link, the commit, the counts and the duration. -/
structure LogTableRow where
  link : Text
  id : Text
  shortId : Text
  subject : Text
  passed : ℕ
  failed : ℕ
  failedToRun : ℕ
  notrun : ℕ
  inprogress : ℕ
  unknown : ℕ
  total : ℕ
  duration : UInt64

/-- A row of the table for one test. Its three links start with the name of the directory. -/
structure SingleTestRow where
  link : Text
  id : Text
  shortId : Text
  subject : Text
  status : TestStatus
  duration : UInt64
  outputDirectory : Text

def commitQuery (ci : LogRequest) (id : Text) : Text :=
  "?user=".toList ++ ci.user ++ "&branch=".toList ++ ci.branch ++ "&commit=".toList ++ id

/-- The part of a message in front of the first line feed. -/
def messageSubject (message : Text) : Text := message.takeWhile (fun c => c != '\n')

def logTableRow (ci : LogRequest) (r : CommitResults) (shortId : Text) : LogTableRow where
  link := commitQuery ci r.id
  id := r.id
  shortId := shortId
  subject := messageSubject r.message
  passed := countResults r.tests .passed
  failed := countResults r.tests .failed
  failedToRun := countResults r.tests .failedToRun
  notrun := countResults r.tests .notrun
  inprogress := countResults r.tests .inprogress
  unknown := countResults r.tests .unknown
  total := r.tests.size
  duration := totalDuration r.tests

def singleTestRow (ci : LogRequest) (rt : CommitResults × Text × TestResult) (shortId : Text) :
    SingleTestRow where
  link := commitQuery ci rt.1.id
  id := rt.1.id
  shortId := shortId
  subject := messageSubject rt.1.message
  status := rt.2.2.status
  duration := rt.2.2.duration
  outputDirectory := "c/".toList ++ rt.1.id ++ '/' :: rt.2.1

inductive LogPage where
  | error (json : Bool) (message : Text)
  | json (entries : List BranchEntry)
  | multiple (stats : Option SingleTestStats) (rows : List (GapRow LogTableRow))
  | single (stats : Option SingleTestStats) (rows : List (GapRow SingleTestRow))

def testedCommit (r : CommitResults) : Option CommitResults := if r.tests.isEmpty then none else some r

def firstTest (r : CommitResults) : Option (CommitResults × Text × TestResult) :=
  r.tests.toList.head?.map (fun t => (r, t))

/-- `none` is a panic: of the parser, or of the slice of an id. -/
def ciLog (repo : GitHistory) (ktest : Ktestrc) (read : Text → Parsed TestResultsMap) (ci : LogRequest) :
    Option LogPage := do
  let commits ← branchGetResults repo ktest read (some ci.user) (some ci.branch) none ci.testsMatching
  match commits with
  | .error e => return .error ci.json e
  | .ok commits =>
    if ci.json then return .json (branchEntries commits)
    else
      let stats := if ci.pattern.isEmpty then none else singleTestStats commits
      if commits.any (fun r => r.tests.size > 1) then
        let rows ← (gapRows testedCommit 0 commits).mapM
          (GapRow.mapM (fun r => (r.id.utf8Take 14).map (logTableRow ci r)))
        return .multiple stats rows
      else
        let rows ← (gapRows firstTest 0 commits).mapM
          (GapRow.mapM (fun rt => (rt.1.id.utf8Take 14).map (singleTestRow ci rt)))
        return .single stats rows

/-- The revision that a name stands for: a branch of the CI's remote before anything else. -/
def resolveBranch (revparses : Text → Bool) (ciRemote : Option Text) (name : Text) : Option Text :=
  match ciRemote.map (fun remote => remote ++ '/' :: name) with
  | some withRemote => if revparses withRemote then some withRemote
    else if revparses name then some name else none
  | none => if revparses name then some name else none

/-- `none` is a panic. -/
def cmdLog (repo : GitHistory) (ktest : Ktestrc) (read : Text → Parsed TestResultsMap)
    (revparses : Text → Bool) (ciRemote : Option Text) (branch : Text) (json : Bool) :
    Option (Except Text LogOutput) :=
  match resolveBranch revparses ciRemote branch with
  | none => some (.error ("can't resolve '".toList ++ branch ++
      "' — try a full ref like 'remote/branch'".toList))
  | some gitref => do
    let results ← branchGetResults repo ktest read none none (some gitref) (fun _ => true)
    match results with
    | .error e => return .error e
    | .ok results =>
      let output ← renderLog (branchEntries results) branch json
      return .ok output

/-- A commit, its results by status, and their duration. -/
structure CommitCounts where
  id : Text
  count : TestStatus → UInt32
  duration : UInt64

def BranchEntry.counts (e : BranchEntry) : CommitCounts where
  id := e.commitId
  duration := e.duration
  count
    | .passed => e.passed
    | .failed => e.failed
    | .notrun => e.notrun
    | .failedToRun => e.failedToRun
    | .inprogress => e.inprogress
    | .unknown => e.unknown

def LogTableRow.counts (r : LogTableRow) : CommitCounts where
  id := r.id
  duration := r.duration
  count
    | .passed => UInt32.ofNat r.passed
    | .failed => UInt32.ofNat r.failed
    | .notrun => UInt32.ofNat r.notrun
    | .failedToRun => UInt32.ofNat r.failedToRun
    | .inprogress => UInt32.ofNat r.inprogress
    | .unknown => UInt32.ofNat r.unknown

def SingleTestRow.counts (r : SingleTestRow) : CommitCounts where
  id := r.id
  duration := r.duration
  count s := if r.status = s then 1 else 0

def CommitCounts.total (c : CommitCounts) : UInt32 :=
  c.count .passed + c.count .failed + c.count .notrun + c.count .failedToRun + c.count .inprogress +
    c.count .unknown

def LogPage.places : LogPage → List (Option CommitCounts)
  | error _ _ => []
  | json entries => entries.map (fun e => some e.counts)
  | multiple _ rows => (spread rows).map (Option.map LogTableRow.counts)
  | single _ rows => (spread rows).map (Option.map SingleTestRow.counts)

/-- What the views say of a commit, if it has tests. -/
def commitPlace (r : CommitResults) : Option CommitCounts :=
  (testedCommit r).map (fun r => (branchEntry r).counts)

theorem countResults_sum (tests : TestResultsMap) :
    countResults tests .passed + countResults tests .failed + countResults tests .notrun +
      countResults tests .failedToRun + countResults tests .inprogress + countResults tests .unknown =
      tests.size := by
  rw [← Std.ExtTreeMap.length_toList]
  unfold countResults
  induction tests.toList with
  | nil => rfl
  | cons t l ih =>
    simp only [List.countP_cons, List.length_cons]
    cases t.2.status <;> simp <;> omega

theorem total_branchEntry (r : CommitResults) :
    (branchEntry r).counts.total = UInt32.ofNat r.tests.size := by
  rw [← countResults_sum r.tests]
  simp only [CommitCounts.total, BranchEntry.counts, branchEntry, countStatus, UInt32.ofNat_add]

theorem counts_logTableRow (ci : LogRequest) (r : CommitResults) (shortId : Text) :
    (logTableRow ci r shortId).counts = (branchEntry r).counts := by
  simp only [LogTableRow.counts, BranchEntry.counts, CommitCounts.mk.injEq]
  refine ⟨rfl, ?_, rfl⟩
  funext s
  cases s <;> rfl

theorem counts_singleTestRow (ci : LogRequest) {r : CommitResults} {t : Text × TestResult}
    (ht : r.tests.toList = [t]) (shortId : Text) :
    (singleTestRow ci (r, t) shortId).counts = (branchEntry r).counts := by
  have hcount : ∀ s, countStatus r.tests s = if t.2.status = s then 1 else 0 := by
    intro s
    rw [countStatus, countResults, ht]
    by_cases hs : t.2.status = s
    · simp [hs]
    · simp [hs]
  simp only [SingleTestRow.counts, BranchEntry.counts, CommitCounts.mk.injEq]
  refine ⟨rfl, ?_, ?_⟩
  · funext s
    cases s <;> exact (hcount _).symm
  · simp [singleTestRow, branchEntry, totalDuration, ht]

theorem isSome_testedCommit (r : CommitResults) : (testedCommit r).isSome = !r.tests.isEmpty := by
  rw [testedCommit]
  cases r.tests.isEmpty <;> rfl

theorem isSome_firstTest (r : CommitResults) : (firstTest r).isSome = !r.tests.isEmpty := by
  rw [firstTest, Option.isSome_map, ← Std.ExtTreeMap.isEmpty_toList]
  cases r.tests.toList <;> rfl

section Tables

variable {σ ρ : Type} (f : CommitResults → Option σ) (row : σ → Text → ρ) (idOf : σ → Text)
variable (counts : ρ → CommitCounts) {commits : List CommitResults}

theorem places_of_rows (hids : ∀ r ∈ commits, ∀ x, f r = some x → ((idOf x).utf8Take 14).isSome = true)
    (hf : ∀ r, (f r).isSome = !r.tests.isEmpty)
    (hcounts : ∀ r ∈ commits, ∀ x, f r = some x → ∀ shortId, counts (row x shortId) = (branchEntry r).counts)
    (hlast : ∀ r, commits.getLast? = some r → r.tests.isEmpty = false) :
    ∃ rows, (gapRows f 0 commits).mapM
        (GapRow.mapM (fun x => ((idOf x).utf8Take 14).map (row x))) = some rows ∧
      (spread rows).map (Option.map counts) = commits.map commitPlace := by
  have hrow : ∀ r ∈ commits, ∀ x, f r = some x →
      ((idOf x).utf8Take 14).map (row x) = some (row x (((idOf x).utf8Take 14).getD [])) := by
    intro r hr x hx
    obtain ⟨shortId, hshort⟩ := Option.isSome_iff_exists.mp (hids r hr x hx)
    simp [hshort]
  refine ⟨_, mapM_gapRows f 0 hrow, ?_⟩
  rw [spread_gapRows_of_getLast]
  · rw [List.map_map]
    refine List.map_congr_left ?_
    intro r hr
    have htested : (testedCommit r).isSome = (f r).isSome := by rw [isSome_testedCommit, hf]
    rw [Function.comp_apply, commitPlace]
    cases hx : f r with
    | none =>
      rw [hx, Option.isSome_none, Option.isSome_eq_false_iff, Option.isNone_iff_eq_none] at htested
      rw [htested]
      rfl
    | some x =>
      have hempty : r.tests.isEmpty = false := by simpa [hx] using (hf r).symm
      have htest : testedCommit r = some r := by simp [testedCommit, hempty]
      rw [htest, Option.map_some, Option.map_some, Option.map_some]
      exact congrArg some (hcounts r hr x hx _)
  · intro r hr
    rw [Option.isSome_map, hf, hlast r hr]
    rfl

end Tables

section Resolved

variable {repo : GitHistory} {ktest : Ktestrc} {read : Text → Parsed TestResultsMap}
variable {id : Text} {walk : List Text} {tests : Text → TestResultsMap}

theorem places_ciLog (ci : LogRequest) {commits : List CommitResults} (hjson : ci.json = false)
    (hresults : branchGetResults repo ktest read (some ci.user) (some ci.branch) none ci.testsMatching =
      some (.ok commits))
    (hids : ∀ r ∈ commits, (r.id.utf8Take 14).isSome = true)
    (hlast : ∀ r, commits.getLast? = some r → r.tests.isEmpty = false) :
    ∃ page, ciLog repo ktest read ci = some page ∧ page.places = commits.map commitPlace := by
  rw [ciLog, hresults]
  cases hview : commits.any (fun r => r.tests.size > 1) with
  | true =>
    obtain ⟨rows, hrows, hplaces⟩ := places_of_rows testedCommit (logTableRow ci) CommitResults.id
      LogTableRow.counts
      (by
        intro r (hr : r ∈ commits) x hx
        rw [testedCommit] at hx
        split_ifs at hx
        exact Option.some.inj hx ▸ hids r hr)
      isSome_testedCommit
      (by
        intro r hr x hx shortId
        rw [testedCommit] at hx
        split_ifs at hx
        exact Option.some.inj hx ▸ counts_logTableRow ci r shortId)
      hlast
    refine ⟨.multiple (if ci.pattern.isEmpty then none else singleTestStats commits) rows, ?_, hplaces⟩
    simp only [Option.bind_eq_bind, Option.bind_some, hjson, hview, hrows, Bool.false_eq_true, if_false,
      if_true]
    rfl
  | false =>
    have hone : ∀ r ∈ commits, ∀ t, r.tests.toList.head? = some t → r.tests.toList = [t] := by
      intro r hr t ht
      have hsize : ¬ r.tests.size > 1 := by simpa using List.any_eq_false.mp hview r hr
      rw [← Std.ExtTreeMap.length_toList] at hsize
      cases hlist : r.tests.toList with
      | nil => simp [hlist] at ht
      | cons t' ts =>
        rw [hlist, List.length_cons] at hsize
        have hts : ts = [] := List.length_eq_zero_iff.mp (by omega)
        subst hts
        simpa [hlist] using ht
    obtain ⟨rows, hrows, hplaces⟩ := places_of_rows firstTest (singleTestRow ci)
      (fun rt => rt.1.id) SingleTestRow.counts
      (by
        intro r hr x hx
        obtain ⟨t, ht, rfl⟩ := Option.map_eq_some_iff.mp hx
        exact hids r hr)
      isSome_firstTest
      (by
        intro r hr x hx shortId
        obtain ⟨t, ht, rfl⟩ := Option.map_eq_some_iff.mp hx
        exact counts_singleTestRow ci (hone r hr t ht) shortId)
      hlast
    refine ⟨.single (if ci.pattern.isEmpty then none else singleTestStats commits) rows, ?_, hplaces⟩
    simp only [Option.bind_eq_bind, Option.bind_some, hjson, hview, hrows, Bool.false_eq_true, if_false]
    rfl

theorem filterMap_commitPlace (commits : List CommitResults) :
    (commits.map commitPlace).filterMap (fun c => c) = (branchEntries commits).map BranchEntry.counts := by
  rw [branchEntries, List.map_map, List.filterMap_map]
  induction commits with
  | nil => rfl
  | cons r rs ih =>
    rw [List.filterMap_cons, Function.comp_apply, commitPlace, testedCommit, ih]
    cases hempty : r.tests.isEmpty with
    | true => simp [hempty]
    | false => simp [hempty]

/-- The page of a branch, its JSON form and the log of `ci-status` are about the same commits and
say the same of each of them. The page has every commit up to the last one that is shown at its
place, and no result is missing from the counts. -/
theorem log_views_agree (ci : LogRequest)
    (hcommit : repo.getCommit (ci.user ++ '/' :: ci.branch) = some id)
    (hwalk : repo.walk id = .ok walk)
    (htests : ∀ id, commitTests read ci.testsMatching id = some (tests id))
    (hids : ∀ c ∈ walkedResults repo walk (resultsDepth ktest) tests, (c.id.utf8Take 14).isSome = true) :
    ∃ k page, ciLog repo ktest read { ci with json := false } = some page ∧
      page.places = ((walkedResults repo walk (resultsDepth ktest) tests).take k).map commitPlace ∧
      (∀ j, ShownCommit (walkedResults repo walk (resultsDepth ktest) tests) j → j < k) ∧
      (∀ j, k = j + 1 → ShownCommit (walkedResults repo walk (resultsDepth ktest) tests) j) ∧
      ∃ entries, ciLog repo ktest read { ci with json := true } = some (.json entries) ∧
        entries.map BranchEntry.counts = page.places.filterMap (fun c => c) ∧
        (∀ e ∈ entries, ∃ r ∈ walkedResults repo walk (resultsDepth ktest) tests,
          r.id = e.commitId ∧ e.counts.total = UInt32.ofNat r.tests.size) ∧
        ((∀ t, ci.testsMatching t = true) →
          generateBranchLog repo ktest read ci.user ci.branch = some (.ok entries) ∧
          ∀ revparses ciRemote name gitref json, resolveBranch revparses ciRemote name = some gitref →
            repo.getCommit gitref = some id →
            cmdLog repo ktest read revparses ciRemote name json =
              (renderLog entries name json).map .ok) := by
  obtain ⟨k, -, hresults, hbelow, hlast⟩ := exists_take_branchGetResults ktest
    (show branchOrCommit (some ci.user) (some ci.branch) none = some _ from rfl) hcommit hwalk htests
  obtain ⟨page, hpage, hplaces⟩ := places_ciLog { ci with json := false } rfl hresults
    (fun r hr => hids r (List.mem_of_mem_take hr)) (getLast?_take_of_shown hlast)
  refine ⟨k, page, hpage, hplaces, hbelow, hlast,
    branchEntries ((walkedResults repo walk (resultsDepth ktest) tests).take k), ?_, ?_, ?_, ?_⟩
  · rw [ciLog, hresults]
    rfl
  · rw [hplaces, filterMap_commitPlace]
  · intro e he
    obtain ⟨r, hr, rfl⟩ := List.mem_map.mp he
    exact ⟨r, List.mem_of_mem_take (List.mem_of_mem_filter hr), rfl, total_branchEntry r⟩
  · intro hall
    have hmatching : ci.testsMatching = fun _ => true := funext hall
    refine ⟨by rw [generateBranchLog, ← hmatching, hresults]; rfl, ?_⟩
    intro revparses ciRemote name gitref json hgitref hsame
    have hrev : branchGetResults repo ktest read none none (some gitref) (fun _ => true) =
        some (.ok ((walkedResults repo walk (resultsDepth ktest) tests).take k)) := by
      rw [← hresults, ← hmatching, branchGetResults_of_walk rfl hsame hwalk,
        branchGetResults_of_walk rfl hcommit hwalk]
    rw [cmdLog, hgitref]
    simp only [hrev, Option.bind_eq_bind, Option.bind_some]
    exact Option.map_eq_bind.symm

end Resolved

theorem log_views_agree_gapped : ∃ k page,
    ciLog gappedHistory defaultKtestrc (fun id => .ok (gappedResults id))
      ⟨"user".toList, "master".toList, [], fun _ => true, false⟩ = some page ∧
    page.places = ((walkedResults gappedHistory gappedWalk (resultsDepth defaultKtestrc)
      (fun id => filterResults (gappedResults id) (fun _ => true))).take k).map commitPlace := by
  obtain ⟨k, page, hpage, hplaces, -⟩ := @log_views_agree gappedHistory defaultKtestrc
    (fun id => .ok (gappedResults id)) _ _ (fun id => filterResults (gappedResults id) (fun _ => true))
    ⟨"user".toList, "master".toList, [], fun _ => true, false⟩ rfl rfl (fun _ => rfl) (by decide +kernel)
  exact ⟨k, page, hpage, hplaces⟩

end KtestCi
