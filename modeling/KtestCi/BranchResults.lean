import KtestCi.CapnpDecoders
import KtestCi.GapPrefix

/-!
# The results of a branch, and the page of a commit

`branch_get_results` walks the history of a commit and collects the results of every commit
that match a filter. It gives up after a hundred commits in a row without any, and cuts off
the commits without any at the end. `ci_commit` shows the first of the commits it gets, with
how far back each of its tests was good.
-/

namespace KtestCi

open GapPrefix

structure CommitResults where
  id : Text
  message : Text
  tests : TestResultsMap

/-- What is read of a repository: the commit that a revision names, the walk that starts at a
commit, and the message of a commit that is found, unless it is not UTF-8. -/
structure GitHistory where
  getCommit : Text → Option Text
  walk : Text → Except Text (List Text)
  findCommit : Text → Option (Option Text)

def filterResults (r : TestResultsMap) (testsMatching : Text → Bool) : TestResultsMap :=
  r.filter (fun name _ => testsMatching name)

/-- The filtered results of a commit. Results that cannot be read count as none; `none` is a
panic of the parser. -/
def commitTests (read : Text → Parsed TestResultsMap) (testsMatching : Text → Bool) (id : Text) :
    Option TestResultsMap :=
  match read id with
  | .ok tests => some (filterResults tests testsMatching)
  | .error => some (filterResults ∅ testsMatching)
  | .panicked => none

def walkedCommits (repo : GitHistory) (walk : List Text) (depth : ℕ) : List (Text × Text) :=
  (walk.filterMap (fun id => (repo.findCommit id).map (fun message => (id, message.getD [])))).take depth

/-- The loop over the commits, with its two counters. -/
def collectResults (tests : Text → Option TestResultsMap) (depth : ℕ) :
    ℕ → ℕ → List (Text × Text) → Option (List CommitResults)
  | _, _, [] => some []
  | nrEmpty, nrCommits, (id, message) :: commits => match tests id with
    | none => none
    | some tests' =>
      let nrEmpty := if tests'.isEmpty then nrEmpty + 1 else 0
      if nrEmpty > 100 then some []
      else
        let rest := if nrCommits + 1 > depth then some []
          else collectResults tests depth nrEmpty (nrCommits + 1) commits
        rest.map (fun rs => ⟨id, message, tests'⟩ :: rs)

def branchResults (tests : Text → Option TestResultsMap) (depth : ℕ) (commits : List (Text × Text)) :
    Option (List CommitResults) :=
  (collectResults tests depth 0 0 commits).map (fun rs => rs.rdropWhile (fun r => r.tests.isEmpty))

/-- The revision that is asked for; `none` is a panic. -/
def branchOrCommit (user branch commit : Option Text) : Option Text :=
  match commit with
  | some commit => some commit
  | none => do
    let user ← user
    let branch ← branch
    return user ++ '/' :: branch

/-- `none` is a panic. The results are those on disk after the files have been prefetched. -/
def branchGetResults (repo : GitHistory) (ktest : Ktestrc) (read : Text → Parsed TestResultsMap)
    (user branch commit : Option Text) (testsMatching : Text → Bool) :
    Option (Except Text (List CommitResults)) := do
  let rev ← branchOrCommit user branch commit
  match repo.getCommit rev with
  | none => return .error "commit not found".toList
  | some id => match repo.walk id with
    | .error e => return .error ("Error walking ".toList ++ rev ++ ": ".toList ++ e)
    | .ok walk =>
      let depth := (ktest.keepResultsCommits.getD 500).toNat
      let results ← branchResults (commitTests read testsMatching) depth (walkedCommits repo walk depth)
      return .ok results

def readsEmpty (tests : Text → Option TestResultsMap) (c : Text × Text) : Bool :=
  (tests c.1).any (fun tests => tests.isEmpty)

/-- The counter of commits never ends the loop, and everything it keeps has been read. -/
theorem collectResults_eq_mapM (tests : Text → Option TestResultsMap) {depth nrEmpty nrCommits : ℕ}
    {commits : List (Text × Text)} (hdepth : nrCommits + commits.length ≤ depth) :
    collectResults tests depth nrEmpty nrCommits commits =
      (upToGap (readsEmpty tests) 100 nrEmpty commits).mapM
        (fun c => (tests c.1).map (fun t => (⟨c.1, c.2, t⟩ : CommitResults))) := by
  induction commits generalizing nrEmpty nrCommits with
  | nil => rfl
  | cons c commits ih =>
    obtain ⟨id, message⟩ := c
    rw [List.length_cons] at hdepth
    rw [collectResults, upToGap]
    cases htests : tests id with
    | none => simp [readsEmpty, htests]
    | some t =>
      have hcount : ¬ nrCommits + 1 > depth := by omega
      have hrest := @ih (if t.isEmpty then nrEmpty + 1 else 0) (nrCommits + 1) (by omega)
      cases hempty : t.isEmpty with
      | true =>
        rw [hempty] at hrest
        by_cases hlimit : nrEmpty + 1 > 100
        · simp [readsEmpty, htests, hempty, hlimit]
        · simp only [if_true] at hrest
          simpa [readsEmpty, htests, hempty, hlimit, hcount, hrest, List.mapM_cons] using Option.map_eq_bind
      | false =>
        rw [hempty] at hrest
        simp only [Bool.false_eq_true, if_false] at hrest
        simpa [readsEmpty, htests, hempty, hcount, hrest, List.mapM_cons] using Option.map_eq_bind

def resultsOf (tests : Text → Option TestResultsMap) (c : Text × Text) : CommitResults :=
  ⟨c.1, c.2, (tests c.1).getD ∅⟩

theorem read_eq_some_iff (tests : Text → Option TestResultsMap) (c : Text × Text) (r : CommitResults) :
    (tests c.1).map (fun t => (⟨c.1, c.2, t⟩ : CommitResults)) = some r ↔
      (tests c.1).isSome = true ∧ r = resultsOf tests c := by
  rw [resultsOf]
  cases tests c.1 with
  | none => simp
  | some t => simp [eq_comm]

theorem branchResults_eq_some_iff {tests : Text → Option TestResultsMap} {depth : ℕ}
    {commits : List (Text × Text)} (hdepth : commits.length ≤ depth) {rs : List CommitResults} :
    branchResults tests depth commits = some rs ↔
      (∀ c ∈ upToGap (readsEmpty tests) 100 0 commits, (tests c.1).isSome = true) ∧
        rs = ((upToGap (readsEmpty tests) 100 0 commits).rdropWhile (readsEmpty tests)).map
          (resultsOf tests) := by
  have htrim : (∀ c ∈ upToGap (readsEmpty tests) 100 0 commits, (tests c.1).isSome = true) →
      ((upToGap (readsEmpty tests) 100 0 commits).map (resultsOf tests)).rdropWhile
        (fun r => r.tests.isEmpty) =
      ((upToGap (readsEmpty tests) 100 0 commits).rdropWhile (readsEmpty tests)).map
        (resultsOf tests) := by
    intro hread
    rw [rdropWhile_map]
    congr 1
    refine rdropWhile_congr ?_
    intro c hc
    obtain ⟨t, ht⟩ := Option.isSome_iff_exists.mp (hread c hc)
    simp [resultsOf, readsEmpty, ht]
  rw [branchResults, collectResults_eq_mapM tests (by omega), Option.map_eq_some_iff]
  constructor
  · rintro ⟨kept, hkept, rfl⟩
    obtain ⟨hread, rfl⟩ := (TextMap.mapM_eq_some_iff (read_eq_some_iff tests) _ _).mp hkept
    exact ⟨hread, htrim hread⟩
  · rintro ⟨hread, rfl⟩
    exact ⟨_, (TextMap.mapM_eq_some_iff (read_eq_some_iff tests) _ _).mpr ⟨hread, rfl⟩, htrim hread⟩

/-- All commits that the loop comes to can be read, exactly if those can that have no gap in
front of them. -/
theorem forall_upToGap_isSome_iff (tests : Text → Option TestResultsMap) (commits : List (Text × Text)) :
    (∀ c ∈ upToGap (readsEmpty tests) 100 0 commits, (tests c.1).isSome = true) ↔
      ∀ j c, commits[j]? = some c → ¬ GapBefore (readsEmpty tests) 100 commits j →
        (tests c.1).isSome = true := by
  have hunread : ∀ {c : Text × Text}, (tests c.1).isSome = false → readsEmpty tests c = false := by
    intro c hc
    rw [Option.isSome_eq_false_iff, Option.isNone_iff_eq_none] at hc
    simp [readsEmpty, hc]
  constructor
  · intro h j c hj hgap
    by_contra hnone
    have hkept := (getElem?_upToGap hj (hunread (by simpa using hnone))).mpr hgap
    exact hnone (h c (List.mem_of_getElem? hkept))
  · intro h c hc
    by_contra hnone
    obtain ⟨j, hj⟩ := List.mem_iff_getElem?.mp hc
    have hcommits := getElem?_of_prefix (upToGap_isPrefix_self commits) hj
    exact hnone (h j c hcommits ((getElem?_upToGap hcommits (hunread (by simpa using hnone))).mp hj))

theorem length_walkedCommits_le (repo : GitHistory) (walk : List Text) (depth : ℕ) :
    (walkedCommits repo walk depth).length ≤ depth := by
  rw [walkedCommits, List.length_take]
  omega

def resultsDepth (ktest : Ktestrc) : ℕ := (ktest.keepResultsCommits.getD 500).toNat

def walkedResults (repo : GitHistory) (walk : List Text) (depth : ℕ) (tests : Text → TestResultsMap) :
    List CommitResults :=
  (walkedCommits repo walk depth).map (fun c => ⟨c.1, c.2, tests c.1⟩)

/-- A commit with matching tests and without 101 commits in a row in front of it that have none. -/
def ShownCommit (commits : List CommitResults) (j : ℕ) : Prop :=
  Shown (fun r => r.tests.isEmpty) 100 commits j

section Resolved

variable {repo : GitHistory} {ktest : Ktestrc} {read : Text → Parsed TestResultsMap}
variable {user branch commit : Option Text} {testsMatching : Text → Bool} {rev id : Text}
variable {walk : List Text}

theorem branchGetResults_of_walk (hrev : branchOrCommit user branch commit = some rev)
    (hcommit : repo.getCommit rev = some id) (hwalk : repo.walk id = .ok walk) :
    branchGetResults repo ktest read user branch commit testsMatching =
      (branchResults (commitTests read testsMatching) (resultsDepth ktest)
        (walkedCommits repo walk (resultsDepth ktest))).map .ok := by
  simp only [branchGetResults, hrev, hcommit, hwalk, Option.bind_eq_bind, Option.bind_some]
  exact Option.map_eq_bind.symm

theorem branchResults_eq_take (repo : GitHistory) (walk : List Text) (depth : ℕ)
    (tests : Text → TestResultsMap) :
    ∃ k ≤ (walkedResults repo walk depth tests).length,
      branchResults (fun id => some (tests id)) depth (walkedCommits repo walk depth) =
        some ((walkedResults repo walk depth tests).take k) ∧
      (∀ j, ShownCommit (walkedResults repo walk depth tests) j → j < k) ∧
      ∀ j, k = j + 1 → ShownCommit (walkedResults repo walk depth tests) j := by
  have hempty : readsEmpty (fun id => some (tests id)) = fun c => (tests c.1).isEmpty := by
    funext c
    simp [readsEmpty]
  have hshown : ∀ j, ShownCommit (walkedResults repo walk depth tests) j ↔
      Shown (fun c => (tests c.1).isEmpty) 100 (walkedCommits repo walk depth) j :=
    fun j => shown_map (p := fun r : CommitResults => r.tests.isEmpty) (n := 100)
      (fun c : Text × Text => (⟨c.1, c.2, tests c.1⟩ : CommitResults)) _ j
  obtain ⟨k, hk, htrim, hbelow, hlast⟩ := rdropWhile_upToGap (p := fun c : Text × Text =>
    (tests c.1).isEmpty) (n := 100) (walkedCommits repo walk depth)
  refine ⟨k, by rwa [walkedResults, List.length_map], ?_, ?_, ?_⟩
  · rw [branchResults_eq_some_iff (length_walkedCommits_le repo walk depth)]
    refine ⟨fun c _ => rfl, ?_⟩
    rw [hempty, htrim, walkedResults, List.map_take]
    rfl
  · exact fun j hj => hbelow j ((hshown j).mp hj)
  · exact fun j hj => (hshown j).mpr (hlast j hj)

theorem exists_take_branchGetResults (ktest : Ktestrc) {tests : Text → TestResultsMap}
    (hrev : branchOrCommit user branch commit = some rev) (hcommit : repo.getCommit rev = some id)
    (hwalk : repo.walk id = .ok walk)
    (htests : ∀ id, commitTests read testsMatching id = some (tests id)) :
    ∃ k ≤ (walkedResults repo walk (resultsDepth ktest) tests).length,
      branchGetResults repo ktest read user branch commit testsMatching =
        some (.ok ((walkedResults repo walk (resultsDepth ktest) tests).take k)) ∧
      (∀ j, ShownCommit (walkedResults repo walk (resultsDepth ktest) tests) j → j < k) ∧
      ∀ j, k = j + 1 → ShownCommit (walkedResults repo walk (resultsDepth ktest) tests) j := by
  obtain ⟨k, hk, hresults, hbelow, hlast⟩ := branchResults_eq_take repo walk (resultsDepth ktest) tests
  refine ⟨k, hk, ?_, hbelow, hlast⟩
  rw [branchGetResults_of_walk hrev hcommit hwalk, funext htests, hresults, Option.map_some]

theorem getLast?_take_of_shown {commits : List CommitResults} {k : ℕ}
    (hlast : ∀ j, k = j + 1 → ShownCommit commits j) (r : CommitResults)
    (hr : (commits.take k).getLast? = some r) : r.tests.isEmpty = false := by
  cases k with
  | zero => simp at hr
  | succ j =>
    obtain ⟨⟨a, ha, hnonempty⟩, -⟩ := hlast j rfl
    rw [List.take_add_one, ha, Option.toList_some, List.getLast?_concat] at hr
    exact Option.some.inj hr ▸ hnonempty

/-- The results of a branch are the commits of the walk up to the last one with matching tests
that has no 101 commits without any in a row in front of it. -/
theorem branchGetResults_eq_take (hrev : branchOrCommit user branch commit = some rev)
    (hcommit : repo.getCommit rev = some id) (hwalk : repo.walk id = .ok walk)
    (tests : Text → TestResultsMap) (htests : ∀ id, commitTests read testsMatching id = some (tests id)) :
    ∃ k, branchGetResults repo ktest read user branch commit testsMatching =
        some (.ok ((walkedResults repo walk (resultsDepth ktest) tests).take k)) ∧
      (∀ j, ShownCommit (walkedResults repo walk (resultsDepth ktest) tests) j → j < k) ∧
      (∀ j, k = j + 1 → ShownCommit (walkedResults repo walk (resultsDepth ktest) tests) j) ∧
      ∀ r, ((walkedResults repo walk (resultsDepth ktest) tests).take k).getLast? = some r →
        r.tests.isEmpty = false := by
  obtain ⟨k, -, hresults, hbelow, hlast⟩ := exists_take_branchGetResults ktest hrev hcommit hwalk htests
  exact ⟨k, hresults, hbelow, hlast, getLast?_take_of_shown hlast⟩

end Resolved

def defaultKtestrc : Ktestrc where
  linuxRepo := "/home/ci/linux".toList
  outputDir := "/home/ci/out".toList
  ktestDir := "/home/ci/ktest".toList
  ktestUrl := none
  repos := ∅
  subtestDurationDef := none
  userNice := ∅
  keepResultsCommits := none

def passedResults : TestResultsMap := (∅ : TestResultsMap).insert "fs.ktest.mount".toList ⟨.passed, 0, 5⟩

def gappedWalk : List Text :=
  ["c0ffee0123456789".toList, "c0ffee0123456788".toList, "c0ffee0123456787".toList,
    "c0ffee0123456786".toList, "c0ffee0123456785".toList]

def gappedHistory : GitHistory where
  getCommit rev := if gappedWalk.contains rev then some rev else gappedWalk.head?
  walk id := .ok (gappedWalk.dropWhile (fun c => c != id))
  findCommit _ := some (some "bcachefs: fix".toList)

def gappedResults (id : Text) : TestResultsMap :=
  if id = "c0ffee0123456789".toList ∨ id = "c0ffee0123456787".toList then passedResults else ∅

theorem branchGetResults_gapped :
    (∃ k, branchGetResults gappedHistory defaultKtestrc (fun id => .ok (gappedResults id))
        (some "user".toList) (some "master".toList) none (fun _ => true) =
        some (.ok ((walkedResults gappedHistory gappedWalk (resultsDepth defaultKtestrc)
          (fun id => filterResults (gappedResults id) (fun _ => true))).take k)) ∧
      (∀ j, ShownCommit (walkedResults gappedHistory gappedWalk (resultsDepth defaultKtestrc)
        (fun id => filterResults (gappedResults id) (fun _ => true))) j → j < k) ∧
      (∀ j, k = j + 1 → ShownCommit (walkedResults gappedHistory gappedWalk
        (resultsDepth defaultKtestrc) (fun id => filterResults (gappedResults id) (fun _ => true))) j) ∧
      ∀ r, ((walkedResults gappedHistory gappedWalk (resultsDepth defaultKtestrc)
        (fun id => filterResults (gappedResults id) (fun _ => true))).take k).getLast? = some r →
        r.tests.isEmpty = false) ∧
    (branchGetResults gappedHistory defaultKtestrc (fun id => .ok (gappedResults id))
      (some "user".toList) (some "master".toList) none (fun _ => true)).map
        (fun results => results.toOption.map (List.map CommitResults.id)) = some (some (gappedWalk.take 3)) :=
  ⟨branchGetResults_eq_take rfl rfl rfl _ (fun _ => rfl), by decide +kernel⟩

/-- The entry of a test in the JSON form. -/
structure TestEntry where
  name : Text
  status : Text
  duration : UInt64

/-- A line of the table: the test, its result, how long ago it was good, and the query of the
link to its history. -/
structure CommitPageRow where
  name : Text
  result : TestResult
  lastGood : Text
  history : Option Text

inductive CommitPage where
  | error (json : Bool) (message : Text)
  | json (commit message : Text) (tests : List TestEntry)
  | html (commit subject : Text) (rows : List CommitPageRow)

def CommitPage.commit : CommitPage → Option Text
  | error _ _ => none
  | json commit _ _ | html commit _ _ => some commit

/-- A request for a commit, with the user that it always comes with. -/
structure CommitRequest where
  user : Text
  branch : Option Text
  commit : Text
  testsMatching : Text → Bool
  json : Bool

/-- The loop of `last_good_line`. -/
def lastGoodFrom (test : Text) : ℕ → List CommitResults → Text
  | idx, [] => ">= ".toList ++ Text.ofInt idx
  | idx, r :: rs => match r.tests[test]? with
    | none => ">= ".toList ++ Text.ofInt idx
    | some t =>
      if t.status = .passed then Text.ofInt idx
      else if t.status ≠ .failed then ">= ".toList ++ Text.ofInt idx
      else lastGoodFrom test (idx + 1) rs

def lastGoodLine (results : List CommitResults) (test : Text) : Text := lastGoodFrom test 0 results

def historyQuery (ci : CommitRequest) (name : Text) : Option Text :=
  ci.branch.map (fun branch => "?user=".toList ++ ci.user ++ "&branch=".toList ++ branch ++
    "&test=^".toList ++ name ++ ['$'])

/-- `none` is a panic: of the parser, or of the index into an empty list. -/
def ciCommit (repo : GitHistory) (ktest : Ktestrc) (read : Text → Parsed TestResultsMap)
    (ci : CommitRequest) : Option CommitPage := do
  let commits ← branchGetResults repo ktest read (some ci.user) ci.branch (some ci.commit) ci.testsMatching
  match commits with
  | .error e => return .error ci.json e
  | .ok commits =>
    let first ← commits[0]?
    if ci.json then
      return .json first.id first.message
        (first.tests.toList.map (fun t => ⟨t.1, t.2.status.toStr, t.2.duration⟩))
    else
      return .html first.id (first.message.takeWhile (fun c => c != '\n'))
        (first.tests.toList.map (fun t => ⟨t.1, t.2, lastGoodLine commits t.1, historyQuery ci t.1⟩))

/-- What git promises of a revision that names a commit: the commit is found, and the walk that
starts at it begins with it. -/
structure NamesCommit (repo : GitHistory) (rev id : Text) (walk : List Text) : Prop where
  getCommit : repo.getCommit rev = some id
  walk_eq : repo.walk id = .ok (id :: walk)
  found : (repo.findCommit id).isSome = true

/-- The page is about the commit that was asked for. -/
def Answers (repo : GitHistory) (ktest : Ktestrc) (read : Text → Parsed TestResultsMap)
    (ci : CommitRequest) (id : Text) : Prop :=
  ∃ page, ciCommit repo ktest read ci = some page ∧ page.commit = some id

theorem answers_iff_head {repo : GitHistory} {ktest : Ktestrc} {read : Text → Parsed TestResultsMap}
    {ci : CommitRequest} {id : Text} : Answers repo ktest read ci id ↔
      ∃ first rest, branchGetResults repo ktest read (some ci.user) ci.branch (some ci.commit)
        ci.testsMatching = some (.ok (first :: rest)) ∧ first.id = id := by
  rw [Answers, ciCommit]
  cases hresults : branchGetResults repo ktest read (some ci.user) ci.branch (some ci.commit)
      ci.testsMatching with
  | none => simp
  | some results =>
    cases results with
    | error e => simp [CommitPage.commit]
    | ok commits =>
      cases commits with
      | nil => simp
      | cons first rest =>
        cases hjson : ci.json with
        | true => simp [CommitPage.commit]
        | false => simp [CommitPage.commit]

theorem walkedCommits_cons {repo : GitHistory} {rev id : Text} {walk : List Text}
    (h : NamesCommit repo rev id walk) (depth : ℕ) {c : Text × Text}
    (hc : (walkedCommits repo (id :: walk) depth)[0]? = some c) : c.1 = id := by
  obtain ⟨message, hmessage⟩ := Option.isSome_iff_exists.mp h.found
  cases depth with
  | zero => simp [walkedCommits] at hc
  | succ depth =>
    simp only [walkedCommits, List.filterMap_cons, hmessage, Option.map_some, List.take_succ_cons,
      List.getElem?_cons_zero, Option.some.injEq] at hc
    rw [← hc]

/-- The page of a commit is shown exactly if the parser gets through the results of the commits
up to a gap and one of them has a test that matches. -/
theorem answers_iff_shown {repo : GitHistory} {ktest : Ktestrc} {read : Text → Parsed TestResultsMap}
    {ci : CommitRequest} {id : Text} {walk : List Text} (h : NamesCommit repo ci.commit id walk) :
    Answers repo ktest read ci id ↔
      (∀ j c, (walkedCommits repo (id :: walk) (resultsDepth ktest))[j]? = some c →
        ¬ GapBefore (readsEmpty (commitTests read ci.testsMatching)) 100
          (walkedCommits repo (id :: walk) (resultsDepth ktest)) j →
        (commitTests read ci.testsMatching c.1).isSome = true) ∧
      ∃ j, Shown (readsEmpty (commitTests read ci.testsMatching)) 100
        (walkedCommits repo (id :: walk) (resultsDepth ktest)) j := by
  have hlen := length_walkedCommits_le repo (id :: walk) (resultsDepth ktest)
  have hhead := fun c => walkedCommits_cons h (resultsDepth ktest) (c := c)
  rw [answers_iff_head, branchGetResults_of_walk rfl h.getCommit h.walk_eq]
  generalize walkedCommits repo (id :: walk) (resultsDepth ktest) = C at hlen hhead ⊢
  generalize commitTests read ci.testsMatching = tests
  obtain ⟨k, hk, htrim, hbelow, hlast⟩ := rdropWhile_upToGap (p := readsEmpty tests) (n := 100) C
  have hresults : ∀ rs, (branchResults tests (resultsDepth ktest) C).map Except.ok =
      some (.ok rs : Except Text (List CommitResults)) ↔
      (∀ c ∈ upToGap (readsEmpty tests) 100 0 C, (tests c.1).isSome = true) ∧
        rs = (C.take k).map (resultsOf tests) := by
    intro rs
    rw [← htrim, ← branchResults_eq_some_iff hlen]
    simp
  rw [← forall_upToGap_isSome_iff]
  constructor
  · rintro ⟨first, rest, hpage, -⟩
    obtain ⟨hread, hcons⟩ := (hresults _).mp hpage
    cases k with
    | zero => simp at hcons
    | succ j => exact ⟨hread, j, hlast j rfl⟩
  · rintro ⟨hread, j, hshown⟩
    have hpos := hbelow j hshown
    cases C with
    | nil => simp at hk; omega
    | cons c C =>
      obtain ⟨m, rfl⟩ : ∃ m, k = m + 1 := ⟨k - 1, by omega⟩
      exact ⟨resultsOf tests c, (C.take m).map (resultsOf tests), (hresults _).mpr ⟨hread, rfl⟩,
        hhead c rfl⟩

/-- An untested commit, whose page is shown because an older one is tested. -/
theorem answers_iff_shown_untested :
    NamesCommit gappedHistory "c0ffee0123456788".toList "c0ffee0123456788".toList (gappedWalk.drop 2) ∧
    Answers gappedHistory defaultKtestrc (fun id => .ok (gappedResults id))
      ⟨"user".toList, none, "c0ffee0123456788".toList, fun _ => true, true⟩ "c0ffee0123456788".toList := by
  have hnames : NamesCommit gappedHistory "c0ffee0123456788".toList "c0ffee0123456788".toList
      (gappedWalk.drop 2) := ⟨by decide +kernel, rfl, rfl⟩
  refine ⟨hnames, (answers_iff_shown hnames).mpr ⟨fun _ _ _ _ => rfl, 1, ⟨_, rfl, by decide +kernel⟩, ?_⟩⟩
  rintro ⟨i, hi, -⟩
  omega

def singleCommit : GitHistory where
  getCommit _ := some "c0ffee".toList
  walk id := .ok [id]
  findCommit _ := some (some "bcachefs: fix".toList)

theorem namesCommit_singleCommit (rev : Text) :
    NamesCommit singleCommit rev "c0ffee".toList [] := ⟨rfl, rfl, rfl⟩

/-- The only commit has no results yet, and its page is a panic in both forms. -/
theorem ciCommit_panics :
    NamesCommit singleCommit "c0ffee".toList "c0ffee".toList [] ∧ ∀ json : Bool,
      ciCommit singleCommit defaultKtestrc (fun _ => .error)
        ⟨"user".toList, none, "c0ffee".toList, fun _ => true, json⟩ = none ∧
      ¬ Answers singleCommit defaultKtestrc (fun _ => .error)
        ⟨"user".toList, none, "c0ffee".toList, fun _ => true, json⟩ "c0ffee".toList := by
  have hnone : ∀ json : Bool, ciCommit singleCommit defaultKtestrc (fun _ => .error)
      ⟨"user".toList, none, "c0ffee".toList, fun _ => true, json⟩ = none := by
    intro json
    rfl
  refine ⟨namesCommit_singleCommit _, fun json => ⟨hnone json, ?_⟩⟩
  rintro ⟨page, hpage, -⟩
  rw [hnone] at hpage
  cases hpage

end KtestCi
