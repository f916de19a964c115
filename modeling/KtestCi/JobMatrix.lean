import KtestCi.CiConfig
import KtestCi.ResultKeys
import KtestCi.RetainFirst
import KtestCi.TestResults

/-!
# The job matrix

The jobs the configuration wants run: commits, tests, subtests and kernels of every test
group, without the subtests that have a verdict or are in progress. Git repositories and
test listings are read through a `World`; the results are read through a view that has
one snapshot per commit, as the cache inside `desired_jobs` does.
-/

namespace KtestCi

structure JobKey where
  user : Text
  repo : Text
  commit : Text
  kernel : Text
  env : Text
  test : Text
  subtest : Text
  deriving DecidableEq

def JobKey.resultKey (k : JobKey) : Text := subtestResultKey k.test k.subtest k.kernel k.env

structure Job where
  key : JobKey
  age : ℕ
  nice : Int64
  duration : UInt64
  deriving DecidableEq

/-- Aggregated history of one subtest. -/
structure TestStats where
  nr : UInt64
  passed : UInt64
  failed : UInt64
  duration : UInt64

structure Duration where
  test : Text
  nr : UInt64
  passed : UInt64
  failed : UInt64
  duration : UInt64

/-- The binary search of `test_stats` between `l` and `r`. Every round shrinks the
interval, so a bound on its length is enough fuel. -/
def searchDurations (entries : List Duration) (fullTest : Text) : ℕ → ℕ → ℕ → Option TestStats
  | 0, _, _ => none
  | fuel + 1, l, r =>
    if l < r then
      let m := l + (r - l) / 2
      match entries[m]? with
      | none => none
      | some d => match compare fullTest d.test with
        | .lt => searchDurations entries fullTest fuel l m
        | .gt => searchDurations entries fullTest fuel (m + 1) r
        | .eq => some ⟨d.nr, d.passed, d.failed, d.duration⟩
    else none

def testStats (durations : Option (List Duration)) (test subtest kernel env : Text) :
    Option TestStats :=
  match durations with
  | none => none
  | some entries =>
    searchDurations entries (subtestResultKey test subtest kernel env) entries.length 0 entries.length

/-- Niceness of a subtest: the group's own, raised for tests whose history is one-sided
and for long-running ones. -/
def jobNice (tg : RcTestGroup) (stats : Option TestStats) : Int64 :=
  match stats with
  | none => tg.nice.toInt64
  | some st =>
    let nice := if tg.testAlwaysPassesNice ≠ 0 ∧ st.passed ≠ st.failed ∧
        st.passed + st.failed > tg.testAlwaysPassesNice
      then tg.nice.toInt64 + tg.testAlwaysPassesNice.toInt64 else tg.nice.toInt64
    if tg.testDurationNice ≠ 0 then nice + (st.duration / tg.testDurationNice).toInt64 else nice

/-- One test of one branch and test group, with the branch's commits newest first. -/
structure TestSpec where
  user : Text
  repo : Text
  test : Text
  env : Text
  tg : RcTestGroup
  subtests : List Text
  kernels : List Text
  commits : List Text

/-- What the matrix reads from outside: the revision walk of a reference in the repository
at a path, and the subtests that a test file lists. -/
structure World where
  git : Text → Option (Text → Option (List Text))
  getSubtests : Text → List Text

def branchCommits (git : Text → Option (List Text)) (userbranch : Text) (max : ℕ) :
    Option (List Text) :=
  (git userbranch).map (List.take max)

/-- Appending a path component; an absolute one replaces the path. -/
def joinPath (dir name : Text) : Text :=
  if ['/'].isPrefixOf name then name else if ['/'].isSuffixOf dir then dir ++ name
  else dir ++ '/' :: name

/-- The specs of one test group of one branch. Every missing piece skips the group. -/
def groupSpecs (rc : CiConfig) (w : World) (user : Text) (userconfig : Userrc) (branch : Text)
    (branchconfig : RcBranch) (tgName : Text) : Option (List TestSpec) := do
  let tg ← userconfig.testGroups[tgName]?
  let env ← encodeEnv tg.env
  let repoPath ← rc.ktest.repoPath branchconfig.repo
  let git ← w.git repoPath
  let commits ← branchCommits git (user ++ '/' :: branch) tg.maxCommits.toNat
  let kernels := if tg.kernels.isEmpty then [[]] else tg.kernels
  return tg.tests.filterMap (fun test =>
    let subtests := w.getSubtests (joinPath (joinPath rc.ktest.ktestDir "tests".toList) test)
    if subtests.isEmpty then none
    else some ⟨user, branchconfig.repo, test, env, tg, subtests, kernels, commits⟩)

def buildTestSpecs (rc : CiConfig) (w : World) : List TestSpec :=
  rc.users.toList.flatMap (fun u => match u.2 with
    | none => []
    | some userconfig => userconfig.branches.toList.flatMap (fun b =>
        b.2.testGroups.flatMap (fun tgName =>
          (groupSpecs rc w u.1 userconfig b.1 b.2 tgName).getD [])))

/-- Where a spec comes from: its commits are the head of a walk, its environment is an encoded one. -/
theorem spec_walk {rc : CiConfig} {w : World} {spec : TestSpec} (h : spec ∈ buildTestSpecs rc w) :
    ∃ user userconfig branch branchConfig path git walk,
      rc.users[user]? = some (some userconfig) ∧ userconfig.branches[branch]? = some branchConfig ∧
      rc.ktest.repoPath branchConfig.repo = some path ∧ w.git path = some git ∧
      git (user ++ '/' :: branch) = some walk ∧ spec.commits = walk.take spec.tg.maxCommits.toNat ∧
      encodeEnv spec.tg.env = some spec.env := by
  obtain ⟨⟨user, config⟩, huser, h⟩ := List.mem_flatMap.mp h
  cases config with
  | none => simp at h
  | some userconfig =>
    obtain ⟨⟨branch, branchConfig⟩, hbranch, h⟩ := List.mem_flatMap.mp h
    obtain ⟨tgName, -, h⟩ := List.mem_flatMap.mp h
    cases hspecs : groupSpecs rc w user userconfig branch branchConfig tgName with
    | none => simp [hspecs] at h
    | some specs =>
      rw [hspecs, Option.getD_some] at h
      obtain ⟨tg, -, env, henv, path, hpath, git, hgit, commits, hcommits, hpure⟩ :
          ∃ tg, _ ∧ ∃ env, _ ∧ ∃ path, _ ∧ ∃ git, _ ∧ ∃ commits, _ ∧ _ := by
        simpa only [groupSpecs, bind, Option.bind_eq_some_iff] using hspecs
      obtain ⟨walk, hwalk, rfl⟩ := Option.map_eq_some_iff.mp hcommits
      obtain rfl := Option.some.inj hpure
      obtain ⟨test, -, hspec⟩ := List.mem_filterMap.mp h
      obtain ⟨-, hspec⟩ := Option.ite_none_left_eq_some.mp hspec
      obtain rfl := Option.some.inj hspec
      exact ⟨user, userconfig, branch, branchConfig, path, git, walk,
        Std.ExtTreeMap.mem_toList_iff_getElem?_eq_some.mp huser,
        Std.ExtTreeMap.mem_toList_iff_getElem?_eq_some.mp hbranch, hpath, hgit, hwalk, rfl, henv⟩

theorem encodeEnv_of_spec {rc : CiConfig} {w : World} {spec : TestSpec} (h : spec ∈ buildTestSpecs rc w) :
    encodeEnv spec.tg.env = some spec.env := by
  obtain ⟨user, userconfig, branch, branchConfig, path, git, walk, -, -, -, -, -, -, henv⟩ := spec_walk h
  exact henv

def jobWeight (j : Job) : Int64 := Int64.ofNat j.age + j.nice

/-- The order of the job list: weight, then commit, test, kernel, env and duration. -/
def jobCmp : Job → Job → Ordering :=
  compareLex (compareOn jobWeight) <| compareLex (compareOn (fun j => j.key.commit)) <|
    compareLex (compareOn (fun j => j.key.test)) <| compareLex (compareOn (fun j => j.key.kernel)) <|
    compareLex (compareOn (fun j => j.key.env)) (compareOn Job.duration)

/-- What the job list depends on besides the specs and the results. -/
structure JobHints where
  durations : Option (List Duration)
  subtestDurationDef : UInt64

def cellJob (hints : JobHints) (spec : TestSpec) (age : ℕ) (commit subtest kernel : Text) : Job where
  key := ⟨spec.user, spec.repo, commit, kernel, spec.env, spec.test, subtest⟩
  age := age
  nice := jobNice spec.tg (testStats hints.durations spec.test subtest [] [])
  duration := match testStats hints.durations spec.test subtest kernel spec.env with
    | some s => s.duration
    | none => hints.subtestDurationDef

def specJobs (hints : JobHints) (results : Text → TestResultsMap) (age : ℕ) (spec : TestSpec) :
    List Job :=
  match spec.commits[age]? with
  | none => []
  | some commit => spec.subtests.flatMap (fun subtest => spec.kernels.filterMap (fun kernel =>
      let key := subtestResultKey spec.test subtest kernel spec.env
      if jobWanted ((results commit)[key]?.map TestResult.status)
      then some (cellJob hints spec age commit subtest kernel) else none))

def maxAge (specs : List TestSpec) : ℕ := (specs.map (fun s => s.commits.length)).foldr max 0

/-- All wanted jobs, emitted age by age. -/
def candidates (hints : JobHints) (results : Text → TestResultsMap) (specs : List TestSpec) :
    List Job :=
  (List.range (maxAge specs)).flatMap (fun age => specs.flatMap (specJobs hints results age))

/-- `desired_jobs` on given specs: a stable sort of the candidates, the first job for
every key, and at most `limit` of those. -/
def desiredJobsOf (hints : JobHints) (results : Text → TestResultsMap) (specs : List TestSpec)
    (limit : ℕ) : List Job :=
  let sorted := (candidates hints results specs).insertionSort (fun a b => (jobCmp a b).isLE)
  (RetainFirst.retainFirst Job.key sorted).take limit

def JobHints.ofConfig (rc : CiConfig) (durations : Option (List Duration)) : JobHints :=
  ⟨durations, rc.ktest.subtestDurationDef.getD 30⟩

def desiredJobs (rc : CiConfig) (w : World) (durations : Option (List Duration))
    (results : Text → TestResultsMap) (limit : ℕ) : List Job :=
  desiredJobsOf (JobHints.ofConfig rc durations) results (buildTestSpecs rc w) limit

structure IsCell (specs : List TestSpec) (spec : TestSpec) (age : ℕ) (commit subtest kernel : Text) :
    Prop where
  spec_mem : spec ∈ specs
  commit_at : spec.commits[age]? = some commit
  subtest_mem : subtest ∈ spec.subtests
  kernel_mem : kernel ∈ spec.kernels

def recorded (results : Text → TestResultsMap) (k : JobKey) : Option TestStatus :=
  (results k.commit)[k.resultKey]?.map TestResult.status

theorem length_le_maxAge {specs : List TestSpec} {spec : TestSpec} (h : spec ∈ specs) :
    spec.commits.length ≤ maxAge specs := by
  unfold maxAge
  induction specs with
  | nil => simp at h
  | cons s specs ih =>
    rcases List.mem_cons.mp h with rfl | h
    · exact le_max_left _ _
    · exact (ih h).trans (le_max_right _ _)

theorem mem_candidates_iff {hints : JobHints} {results : Text → TestResultsMap}
    {specs : List TestSpec} {j : Job} :
    j ∈ candidates hints results specs ↔ ∃ spec age commit subtest kernel,
      IsCell specs spec age commit subtest kernel ∧ j = cellJob hints spec age commit subtest kernel ∧
        jobWanted (recorded results j.key) = true := by
  constructor
  · intro h
    simp only [candidates, List.mem_flatMap, List.mem_range] at h
    obtain ⟨age, _, spec, hspec, hj⟩ := h
    unfold specJobs at hj
    split at hj
    · simp at hj
    next commit hcommit =>
      simp only [List.mem_flatMap, List.mem_filterMap] at hj
      obtain ⟨subtest, hsub, kernel, hkernel, hj⟩ := hj
      split_ifs at hj with hw
      obtain rfl := Option.some.inj hj
      exact ⟨spec, age, commit, subtest, kernel, ⟨hspec, hcommit, hsub, hkernel⟩, rfl, hw⟩
  · rintro ⟨spec, age, commit, subtest, kernel, hcell, rfl, hw⟩
    obtain ⟨hage, -⟩ := List.getElem?_eq_some_iff.mp hcell.commit_at
    simp only [candidates, List.mem_flatMap, List.mem_range]
    refine ⟨age, lt_of_lt_of_le hage (length_le_maxAge hcell.spec_mem), spec, hcell.spec_mem, ?_⟩
    simp only [specJobs, hcell.commit_at, List.mem_flatMap, List.mem_filterMap]
    exact ⟨subtest, hcell.subtest_mem, kernel, hcell.kernel_mem, if_pos hw⟩

end KtestCi
