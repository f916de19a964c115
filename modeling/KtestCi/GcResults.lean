import KtestCi.JobMatrix
import KtestCi.Utf8Slices

/-!
# Garbage collection of results

`gc-results` keeps the results of the commits near the tips of all branches and removes what
else is older than an hour. A branch that cannot be read counts as a branch without commits:
the user's file did not parse, the repository did not open, or the reference did not resolve.
The second half of the module compares the commits that are kept with those of the scheduler.
-/

namespace KtestCi

/-- An open repository: the revision walk of a reference, and whether a commit is found. -/
structure Repo where
  walk : Text → Option (List Text)
  findCommit : Text → Bool

abbrev Repos := Text → Option Repo

def branchGetCommits (repo : Repo) (branch : Text) (maxCommits : UInt64) : List Text :=
  match repo.walk branch with
  | none => []
  | some walk => (walk.take maxCommits.toNat).filter repo.findCommit

def gcDepth (rc : CiConfig) : UInt64 := rc.ktest.keepResultsCommits.getD 500

def getLiveCommits (rc : CiConfig) (repos : Repos) : List Text :=
  rc.users.toList.flatMap (fun u => match u.2 with
    | none => []
    | some userconfig => userconfig.branches.toList.flatMap (fun b =>
      match rc.ktest.repoPath b.2.repo with
      | none => []
      | some path => match repos path with
        | none => []
        | some repo => branchGetCommits repo (u.1 ++ '/' :: b.1) (gcDepth rc)))

/-- A file name: valid UTF-8, or the bytes it has. -/
inductive FileName where
  | utf8 (t : Text)
  | bytes (b : List UInt8)
  deriving DecidableEq

/-- Whether a result is kept; `none` is a panic in the slice. -/
def resultIsLive (commits : List Text) : FileName → Option Bool
  | .bytes _ => some false
  | .utf8 fname =>
    if fname.utf8Len < 40 then some true
    else (fname.utf8Take 40).map (fun commit => commits.contains commit)

/-- An entry of the output directory, with its time in nanoseconds where it can be read. -/
structure OutputEntry where
  name : FileName
  modified : Option ℤ
  deriving DecidableEq

/-- The entries the loop comes to remove, up to a panic. -/
def gcLoop (commits : List Text) (olderThan : ℤ) : List OutputEntry → List OutputEntry
  | [] => []
  | d :: ds => match resultIsLive commits d.name with
    | none => []
    | some true => gcLoop commits olderThan ds
    | some false => match d.modified with
      | none => []
      | some modified =>
        if modified < olderThan then d :: gcLoop commits olderThan ds else gcLoop commits olderThan ds

def gcResults (dryRun : Bool) (rc : CiConfig) (repos : Repos) (now : ℤ)
    (entries : List OutputEntry) : List OutputEntry :=
  let removing := gcLoop (getLiveCommits rc repos) (now - 3600 * 1000000000) entries
  if dryRun then [] else removing

/-- The commits kept for one branch, if the branch can be read. -/
def readBranch (rc : CiConfig) (repos : Repos) (user branch : Text) : Option (List Text) := do
  let userconfig ← (rc.users[user]?).join
  let branchConfig ← userconfig.branches[branch]?
  let path ← rc.ktest.repoPath branchConfig.repo
  let repo ← repos path
  let walk ← repo.walk (user ++ '/' :: branch)
  return (walk.take (gcDepth rc).toNat).filter repo.findCommit

def Kept (rc : CiConfig) (repos : Repos) (commit : Text) : Prop :=
  ∃ user branch commits, readBranch rc repos user branch = some commits ∧ commit ∈ commits

theorem readBranch_eq_some_iff {rc : CiConfig} {repos : Repos} {user branch : Text}
    {commits : List Text} : readBranch rc repos user branch = some commits ↔
      ∃ userconfig branchConfig path repo walk, rc.users[user]? = some (some userconfig) ∧
        userconfig.branches[branch]? = some branchConfig ∧
        rc.ktest.repoPath branchConfig.repo = some path ∧ repos path = some repo ∧
        repo.walk (user ++ '/' :: branch) = some walk ∧
        (walk.take (gcDepth rc).toNat).filter repo.findCommit = commits := by
  simp [readBranch, Option.bind_eq_some_iff, Option.join_eq_some_iff]

theorem mem_branchGetCommits {repo : Repo} {branch : Text} {maxCommits : UInt64} {commit : Text} :
    commit ∈ branchGetCommits repo branch maxCommits ↔ ∃ walk, repo.walk branch = some walk ∧
      commit ∈ (walk.take maxCommits.toNat).filter repo.findCommit := by
  rw [branchGetCommits]
  cases repo.walk branch <;> simp

theorem mem_getLiveCommits {rc : CiConfig} {repos : Repos} {commit : Text} :
    commit ∈ getLiveCommits rc repos ↔ Kept rc repos commit := by
  constructor
  · intro h
    obtain ⟨⟨user, config⟩, huser, h⟩ := List.mem_flatMap.mp h
    cases config with
    | none => simp at h
    | some userconfig =>
      obtain ⟨⟨branch, branchConfig⟩, hbranch, h⟩ := List.mem_flatMap.mp h
      cases hpath : rc.ktest.repoPath branchConfig.repo with
      | none => simp [hpath] at h
      | some path =>
        cases hrepo : repos path with
        | none => simp [hpath, hrepo] at h
        | some repo =>
          simp only [hpath, hrepo] at h
          obtain ⟨walk, hwalk, hmem⟩ := mem_branchGetCommits.mp h
          exact ⟨user, branch, _, readBranch_eq_some_iff.mpr ⟨userconfig, branchConfig, path, repo, walk,
            Std.ExtTreeMap.mem_toList_iff_getElem?_eq_some.mp huser,
            Std.ExtTreeMap.mem_toList_iff_getElem?_eq_some.mp hbranch, hpath, hrepo, hwalk, rfl⟩, hmem⟩
  · rintro ⟨user, branch, commits, h, hmem⟩
    obtain ⟨userconfig, branchConfig, path, repo, walk, huser, hbranch, hpath, hrepo, hwalk, rfl⟩ :=
      readBranch_eq_some_iff.mp h
    refine List.mem_flatMap.mpr ⟨(user, some userconfig),
      Std.ExtTreeMap.mem_toList_iff_getElem?_eq_some.mpr huser, ?_⟩
    refine List.mem_flatMap.mpr ⟨(branch, branchConfig),
      Std.ExtTreeMap.mem_toList_iff_getElem?_eq_some.mpr hbranch, ?_⟩
    simp only [hpath, hrepo]
    exact mem_branchGetCommits.mpr ⟨walk, hwalk, hmem⟩

/-- The same state of the world, with some users' files, repositories and references that
cannot be read. -/
structure Degraded (rc : CiConfig) (repos : Repos) (rc' : CiConfig) (repos' : Repos) : Prop where
  ktest : rc'.ktest = rc.ktest
  users : ∀ user : Text, rc'.users[user]? = rc.users[user]? ∨
    rc'.users[user]? = some none ∧ ∃ userconfig, rc.users[user]? = some (some userconfig)
  repos : ∀ path repo', repos' path = some repo' → ∃ repo, repos path = some repo ∧
    repo'.findCommit = repo.findCommit ∧ ∀ ref, repo'.walk ref = none ∨ repo'.walk ref = repo.walk ref

theorem Degraded.readBranch {rc rc' : CiConfig} {repos repos' : Repos}
    (h : Degraded rc repos rc' repos') {user branch : Text} {commits : List Text}
    (hread : readBranch rc' repos' user branch = some commits) :
    readBranch rc repos user branch = some commits := by
  obtain ⟨userconfig, branchConfig, path, repo', walk, huser, hbranch, hpath, hrepo, hwalk, hcommits⟩ :=
    readBranch_eq_some_iff.mp hread
  obtain ⟨repo, hrepo', hfind, hrefs⟩ := h.repos path repo' hrepo
  refine readBranch_eq_some_iff.mpr ⟨userconfig, branchConfig, path, repo, walk, ?_, hbranch, ?_,
    hrepo', ?_, ?_⟩
  · rcases h.users user with heq | ⟨hfailed, -⟩
    · rw [← heq, huser]
    · rw [huser] at hfailed
      simp at hfailed
  · rw [← h.ktest, hpath]
  · rcases hrefs (user ++ '/' :: branch) with hnone | heq
    · rw [hwalk] at hnone
      simp at hnone
    · rw [← heq, hwalk]
  · rw [← hcommits, hfind, gcDepth, gcDepth, h.ktest]

theorem Degraded.kept {rc rc' : CiConfig} {repos repos' : Repos} (h : Degraded rc repos rc' repos')
    {commit : Text} (hkept : Kept rc' repos' commit) : Kept rc repos commit := by
  obtain ⟨user, branch, commits, hread, hmem⟩ := hkept
  exact ⟨user, branch, commits, h.readBranch hread, hmem⟩

/-- A branch that can no longer be read had the commit near its tip. -/
def KeptByFailed (rc : CiConfig) (repos : Repos) (rc' : CiConfig) (repos' : Repos) (commit : Text) :
    Prop :=
  ∃ user branch commits, readBranch rc repos user branch = some commits ∧
    readBranch rc' repos' user branch = none ∧ commit ∈ commits

theorem Degraded.kept_iff {rc rc' : CiConfig} {repos repos' : Repos}
    (h : Degraded rc repos rc' repos') {commit : Text} :
    Kept rc repos commit ↔ Kept rc' repos' commit ∨ KeptByFailed rc repos rc' repos' commit := by
  constructor
  · rintro ⟨user, branch, commits, hread, hmem⟩
    cases hread' : KtestCi.readBranch rc' repos' user branch with
    | none => exact .inr ⟨user, branch, commits, hread, hread', hmem⟩
    | some commits' =>
      have heq := (h.readBranch hread').symm.trans hread
      exact .inl ⟨user, branch, commits', hread', Option.some.inj heq ▸ hmem⟩
  · rintro (hkept | ⟨user, branch, commits, hread, -, hmem⟩)
    · exact h.kept hkept
    · exact ⟨user, branch, commits, hread, hmem⟩

def OutputEntry.commit (d : OutputEntry) : Option Text :=
  match d.name with
  | .bytes _ => none
  | .utf8 fname => if fname.utf8Len < 40 then none else fname.utf8Take 40

def OutputEntry.Old (d : OutputEntry) (olderThan : ℤ) : Prop :=
  ∃ modified, d.modified = some modified ∧ modified < olderThan

def OutputEntry.stops (commits : List Text) (d : OutputEntry) : Bool :=
  match resultIsLive commits d.name with
  | none => true
  | some live => !live && d.modified.isNone

def reached (commits : List Text) (entries : List OutputEntry) : List OutputEntry :=
  entries.takeWhile (fun d => !d.stops commits)

theorem mem_gcLoop {commits : List Text} {olderThan : ℤ} {entries : List OutputEntry}
    {d : OutputEntry} : d ∈ gcLoop commits olderThan entries ↔
      d ∈ reached commits entries ∧ resultIsLive commits d.name = some false ∧ d.Old olderThan := by
  induction entries with
  | nil => simp [gcLoop, reached]
  | cons e es ih =>
    rw [reached] at ih
    rw [gcLoop, reached, List.takeWhile_cons]
    cases hlive : resultIsLive commits e.name with
    | none => simp [OutputEntry.stops, hlive]
    | some live =>
      cases live with
      | true =>
        simp only [ih, OutputEntry.stops, hlive, Bool.not_true, Bool.false_and, Bool.not_false, if_true,
          List.mem_cons]
        constructor
        · rintro ⟨hmem, hrest⟩
          exact ⟨.inr hmem, hrest⟩
        · rintro ⟨rfl | hmem, hnot, hold⟩
          · simp [hlive] at hnot
          · exact ⟨hmem, hnot, hold⟩
      | false =>
        cases hmodified : e.modified with
        | none => simp [OutputEntry.stops, hlive, hmodified]
        | some modified =>
          have hold : e.Old olderThan ↔ modified < olderThan := by simp [OutputEntry.Old, hmodified]
          simp only [OutputEntry.stops, hlive, hmodified, Bool.not_false, Option.isNone_some,
            Bool.and_false, if_true, List.mem_cons]
          split_ifs with hlt
          · rw [List.mem_cons, ih]
            constructor
            · rintro (rfl | ⟨hmem, hrest⟩)
              · exact ⟨.inl rfl, hlive, hold.mpr hlt⟩
              · exact ⟨.inr hmem, hrest⟩
            · rintro ⟨rfl | hmem, hrest⟩
              · exact .inl rfl
              · exact .inr ⟨hmem, hrest⟩
          · rw [ih]
            constructor
            · rintro ⟨hmem, hrest⟩
              exact ⟨.inr hmem, hrest⟩
            · rintro ⟨rfl | hmem, hnot, hold'⟩
              · exact absurd (hold.mp hold') hlt
              · exact ⟨hmem, hnot, hold'⟩

theorem resultIsLive_eq_false_iff {commits : List Text} {d : OutputEntry} :
    resultIsLive commits d.name = some false ↔
      (∃ b, d.name = .bytes b) ∨ ∃ commit, d.commit = some commit ∧ commit ∉ commits := by
  rw [OutputEntry.commit]
  cases d.name with
  | bytes b => simp [resultIsLive]
  | utf8 fname =>
    rw [resultIsLive]
    by_cases hlen : fname.utf8Len < 40
    · simp [hlen]
    · simp [hlen, Option.map_eq_some_iff]

theorem resultIsLive_eq_none_iff {commits commits' : List Text} {name : FileName} :
    resultIsLive commits name = none ↔ resultIsLive commits' name = none := by
  cases name with
  | bytes b => simp [resultIsLive]
  | utf8 fname =>
    rw [resultIsLive, resultIsLive]
    split_ifs <;> simp

theorem stops_of_subset {commits commits' : List Text} (hsub : commits' ⊆ commits) {d : OutputEntry}
    (h : d.stops commits = true) : d.stops commits' = true := by
  rw [OutputEntry.stops] at h ⊢
  cases hlive : resultIsLive commits d.name with
  | none =>
    rw [resultIsLive_eq_none_iff.mp hlive]
  | some live =>
    rw [hlive] at h
    obtain ⟨hdead, hmodified⟩ : live = false ∧ d.modified.isNone = true := by simpa using h
    subst hdead
    have hlive' : resultIsLive commits' d.name = some false := by
      rcases resultIsLive_eq_false_iff.mp hlive with hbytes | ⟨commit, hcommit, hnot⟩
      · exact resultIsLive_eq_false_iff.mpr (.inl hbytes)
      · exact resultIsLive_eq_false_iff.mpr (.inr ⟨commit, hcommit, fun hmem => hnot (hsub hmem)⟩)
    simp [hlive', hmodified]

theorem reached_subset {commits commits' : List Text} (hsub : commits' ⊆ commits)
    (entries : List OutputEntry) : reached commits' entries ⊆ reached commits entries := by
  induction entries with
  | nil => simp [reached]
  | cons e es ih =>
    rw [reached, reached] at ih ⊢
    rw [List.takeWhile_cons, List.takeWhile_cons]
    cases hstops : e.stops commits' with
    | true => simp
    | false =>
      have hstops' : e.stops commits = false := by
        by_contra hne
        rw [stops_of_subset hsub (by simpa using hne)] at hstops
        simp at hstops
      simpa [hstops'] using List.cons_subset_cons e ih

/-- Removing under fewer live commits removes no more, exactly when no old entry that is
reached was live before. -/
theorem gcLoop_subset_iff {commits commits' : List Text} (hsub : commits' ⊆ commits) (olderThan : ℤ)
    (entries : List OutputEntry) :
    (∀ d ∈ gcLoop commits' olderThan entries, d ∈ gcLoop commits olderThan entries) ↔
      ∀ d ∈ reached commits' entries, d.Old olderThan → ∀ commit, d.commit = some commit →
        commit ∈ commits → commit ∈ commits' := by
  constructor
  · intro h d hreached hold commit hcommit hmem
    by_contra hnot
    have hremoved := h d (mem_gcLoop.mpr
      ⟨hreached, resultIsLive_eq_false_iff.mpr (.inr ⟨commit, hcommit, hnot⟩), hold⟩)
    rcases resultIsLive_eq_false_iff.mp (mem_gcLoop.mp hremoved).2.1 with ⟨b, hb⟩ | ⟨c, hc, hnot'⟩
    · simp [OutputEntry.commit, hb] at hcommit
    · rw [hcommit] at hc
      exact hnot' (Option.some.inj hc ▸ hmem)
  · intro h d hd
    obtain ⟨hreached, hdead, hold⟩ := mem_gcLoop.mp hd
    refine mem_gcLoop.mpr ⟨reached_subset hsub entries hreached, ?_, hold⟩
    rcases resultIsLive_eq_false_iff.mp hdead with hbytes | ⟨commit, hcommit, hnot⟩
    · exact resultIsLive_eq_false_iff.mpr (.inl hbytes)
    · exact resultIsLive_eq_false_iff.mpr (.inr ⟨commit, hcommit,
        fun hmem => hnot (h d hreached hold commit hcommit hmem)⟩)

/-- Failing to read something removes nothing more, exactly when no old result that is
reached belongs to a commit that only the unreadable branches keep. -/
theorem gcResults_failSafe_iff (dryRun : Bool) (rc rc' : CiConfig) (repos repos' : Repos)
    (h : Degraded rc repos rc' repos') (now : ℤ) (entries : List OutputEntry) :
    (∀ d ∈ gcResults dryRun rc' repos' now entries, d ∈ gcResults dryRun rc repos now entries) ↔
      dryRun = true ∨ ∀ d ∈ reached (getLiveCommits rc' repos') entries,
        d.Old (now - 3600 * 1000000000) → ∀ commit, d.commit = some commit →
          KeptByFailed rc repos rc' repos' commit → Kept rc' repos' commit := by
  have hsub : getLiveCommits rc' repos' ⊆ getLiveCommits rc repos :=
    fun _ hmem => mem_getLiveCommits.mpr (h.kept (mem_getLiveCommits.mp hmem))
  cases dryRun with
  | true => simp [gcResults]
  | false =>
    simp only [gcResults, Bool.false_eq_true, if_false, false_or, gcLoop_subset_iff hsub,
      mem_getLiveCommits, h.kept_iff]
    constructor
    · intro hall d hd hold commit hcommit hfailed
      exact hall d hd hold commit hcommit (.inr hfailed)
    · intro hall d hd hold commit hcommit hkept
      rcases hkept with hkept | hfailed
      · exact hkept
      · exact hall d hd hold commit hcommit hfailed

def gcConfig (userrc : Option Userrc) : CiConfig where
  ktest := ⟨"/linux".toList, "/out".toList, "/ktest".toList, none, ∅, none, ∅, some 1⟩
  users := (∅ : TextMap (Option Userrc)).insert "user".toList userrc

theorem getElem?_gcConfig_users (userrc : Option Userrc) (user : Text) :
    (gcConfig userrc).users[user]? = if "user".toList = user then some userrc else none := by
  change ((∅ : TextMap (Option Userrc)).insert "user".toList userrc)[user]? = _
  rw [TextMap.getElem?_insert, Std.ExtTreeMap.getElem?_empty]

def gcUserrc : Userrc :=
  ⟨(∅ : TextMap RcTestGroup).insert "boot".toList ⟨2, 0, 0, 0, ["boot.ktest".toList], [], ∅⟩,
    (∅ : TextMap RcBranch).insert "master".toList ⟨"linux".toList, ["boot".toList]⟩⟩

def gcRepos : Repos := fun _ =>
  some ⟨fun _ => some [List.replicate 40 'a', List.replicate 40 'b'], fun _ => true⟩

theorem gcConfig_degraded : Degraded (gcConfig (some gcUserrc)) gcRepos (gcConfig none) gcRepos := by
  refine ⟨rfl, fun user => ?_, fun path repo hrepo => ⟨repo, hrepo, rfl, fun ref => .inr rfl⟩⟩
  rw [getElem?_gcConfig_users, getElem?_gcConfig_users]
  split_ifs with huser
  · exact .inr ⟨rfl, gcUserrc, rfl⟩
  · exact .inl rfl

/-- The results of the tip are removed when the user's file does not parse. -/
theorem gcResults_not_failSafe : ¬ ∀ (dryRun : Bool) (rc rc' : CiConfig) (repos repos' : Repos),
    Degraded rc repos rc' repos' → ∀ (now : ℤ) (entries : List OutputEntry),
      ∀ d ∈ gcResults dryRun rc' repos' now entries, d ∈ gcResults dryRun rc repos now entries := by
  intro hall
  have hsafe := hall false _ _ _ _ gcConfig_degraded 7200000000000
    [⟨.utf8 (List.replicate 40 'a'), some 0⟩] ⟨.utf8 (List.replicate 40 'a'), some 0⟩
  exact absurd (hsafe (by decide +kernel)) (by decide +kernel)

def sharedConfig (userrc : Option Userrc) : CiConfig :=
  { gcConfig userrc with users := (gcConfig userrc).users.insert "second".toList (some gcUserrc) }

def oldEntries : List OutputEntry :=
  [⟨.utf8 (List.replicate 40 'a'), some 0⟩, ⟨.utf8 (List.replicate 40 'c'), some 0⟩]

/-- The results of the tip stay because the other branch can be read. -/
theorem gcResults_failSafe_shared :
    Degraded (sharedConfig (some gcUserrc)) gcRepos (sharedConfig none) gcRepos ∧
      (∀ d ∈ gcResults false (sharedConfig none) gcRepos 7200000000000 oldEntries,
        d ∈ gcResults false (sharedConfig (some gcUserrc)) gcRepos 7200000000000 oldEntries) ∧
      gcResults false (sharedConfig none) gcRepos 7200000000000 oldEntries =
        [⟨.utf8 (List.replicate 40 'c'), some 0⟩] := by
  have hdegraded : Degraded (sharedConfig (some gcUserrc)) gcRepos (sharedConfig none) gcRepos := by
    refine ⟨rfl, fun user => ?_, fun path repo hrepo => ⟨repo, hrepo, rfl, fun ref => .inr rfl⟩⟩
    rw [sharedConfig, sharedConfig, TextMap.getElem?_insert, TextMap.getElem?_insert]
    split_ifs
    · exact .inl rfl
    · exact gcConfig_degraded.users user
  refine ⟨hdegraded, (gcResults_failSafe_iff false _ _ _ _ hdegraded _ _).mpr (.inr ?_), by decide +kernel⟩
  intro d hd _ commit hcommit hfailed
  have hkept := mem_getLiveCommits.mpr (hdegraded.kept_iff.mpr (.inr hfailed))
  rcases List.mem_cons.mp (List.takeWhile_subset _ hd) with rfl | hd
  · have htip : OutputEntry.commit ⟨.utf8 (List.replicate 40 'a'), some 0⟩ = some (List.replicate 40 'a') := by
      decide
    obtain rfl := Option.some.inj (htip.symm.trans hcommit)
    exact mem_getLiveCommits.mp (by decide +kernel)
  · rw [List.mem_singleton.mp hd] at hcommit
    have hdead : OutputEntry.commit ⟨.utf8 (List.replicate 40 'c'), some 0⟩ = some (List.replicate 40 'c') := by
      decide
    obtain rfl := Option.some.inj (hdead.symm.trans hcommit)
    exact absurd hkept (by decide +kernel)

def Reads (w : World) (repos : Repos) : Prop := ∀ path, w.git path = (repos path).map Repo.walk

def WalksFindCommits (repos : Repos) : Prop :=
  ∀ path repo ref walk, repos path = some repo → repo.walk ref = some walk →
    ∀ commit ∈ walk, repo.findCommit commit = true

/-- Near the tip of a branch, every commit the scheduler works on is kept. -/
theorem kept_of_spec {rc : CiConfig} {w : World} {repos : Repos} (hreads : Reads w repos)
    (hfind : WalksFindCommits repos) {spec : TestSpec} (hspec : spec ∈ buildTestSpecs rc w)
    {commit : Text} (hcommit : commit ∈ spec.commits.take (gcDepth rc).toNat) : Kept rc repos commit := by
  obtain ⟨user, userconfig, branch, branchConfig, path, git, walk, huser, hbranch, hpath, hgit, hwalk,
    hcommits, -⟩ := spec_walk hspec
  rw [hreads path] at hgit
  obtain ⟨repo, hrepo, rfl⟩ := Option.map_eq_some_iff.mp hgit
  refine ⟨user, branch, _, readBranch_eq_some_iff.mpr ⟨userconfig, branchConfig, path, repo, walk, huser,
    hbranch, hpath, hrepo, hwalk, rfl⟩, ?_⟩
  rw [hcommits, List.take_take, Nat.min_comm, ← List.take_take] at hcommit
  have hmem := List.mem_of_mem_take hcommit
  exact List.mem_filter.mpr ⟨hmem, hfind path repo _ walk hrepo hwalk commit (List.mem_of_mem_take hmem)⟩

/-- The commit is live, and no entry named after it is removed. -/
structure Protected (rc : CiConfig) (repos : Repos) (commit : Text) : Prop where
  live : commit ∈ getLiveCommits rc repos
  not_removed : ∀ (dryRun : Bool) (now : ℤ) (entries : List OutputEntry),
    ∀ d ∈ gcResults dryRun rc repos now entries, d.commit ≠ some commit

theorem Kept.protected {rc : CiConfig} {repos : Repos} {commit : Text} (h : Kept rc repos commit) :
    Protected rc repos commit := by
  have hlive := mem_getLiveCommits.mpr h
  refine ⟨hlive, ?_⟩
  intro dryRun now entries d hd hcommit
  cases dryRun with
  | true => simp [gcResults] at hd
  | false =>
    rcases resultIsLive_eq_false_iff.mp (mem_gcLoop.mp hd).2.1 with ⟨b, hb⟩ | ⟨c, hc, hnot⟩
    · simp [OutputEntry.commit, hb] at hcommit
    · rw [hcommit] at hc
      exact hnot (Option.some.inj hc ▸ hlive)

/-- The commits of the scheduler are kept as far as results are kept at all: all of them,
where the test group does not reach further back. -/
theorem protected_of_spec (rc : CiConfig) (w : World) (repos : Repos) (hreads : Reads w repos)
    (hfind : WalksFindCommits repos) (spec : TestSpec) (hspec : spec ∈ buildTestSpecs rc w) :
    (∀ commit ∈ spec.commits.take (gcDepth rc).toNat, Protected rc repos commit) ∧
    (spec.tg.maxCommits ≤ gcDepth rc → ∀ commit ∈ spec.commits, Protected rc repos commit) := by
  have hnear : ∀ commit ∈ spec.commits.take (gcDepth rc).toNat, Protected rc repos commit :=
    fun commit hcommit => (kept_of_spec hreads hfind hspec hcommit).protected
  refine ⟨hnear, fun hmax commit hcommit => hnear commit ?_⟩
  obtain ⟨user, userconfig, branch, branchConfig, path, git, walk, -, -, -, -, -, hcommits, -⟩ :=
    spec_walk hspec
  rw [hcommits, List.take_take, Nat.min_eq_right (UInt64.le_iff_toNat_le.mp hmax), ← hcommits]
  exact hcommit

def gcWorld : World where
  git := fun path => (gcRepos path).map Repo.walk
  getSubtests := fun _ => ["boot".toList]

theorem gcWorld_reads : Reads gcWorld gcRepos := fun _ => rfl

theorem gcRepos_findCommit : WalksFindCommits gcRepos := by
  intro path repo ref walk hrepo _ commit _
  obtain rfl := Option.some.inj hrepo
  rfl

structure Readable (rc : CiConfig) (repos : Repos) : Prop where
  users : ∀ user : Text, rc.users[user]? ≠ some none
  branches : ∀ (user : Text) (userconfig : Userrc) (branch : Text),
    rc.users[user]? = some (some userconfig) → branch ∈ userconfig.branches →
      (readBranch rc repos user branch).isSome = true

theorem gcConfig_readable : Readable (gcConfig (some gcUserrc)) gcRepos := by
  constructor
  · intro user
    rw [getElem?_gcConfig_users]
    split_ifs <;> simp
  · intro user userconfig branch huser hbranch
    rw [getElem?_gcConfig_users] at huser
    split_ifs at huser with heq
    obtain rfl := Option.some.inj (Option.some.inj huser)
    obtain ⟨branchConfig, hconfig⟩ := TextMap.mem_iff_exists.mp hbranch
    have hmaster : "master".toList = branch := by
      by_contra hne
      rw [gcUserrc, TextMap.getElem?_insert, if_neg hne] at hconfig
      simp at hconfig
    subst heq hmaster
    decide +kernel

/-- A test group that reaches further back than results are kept. -/
theorem not_live_of_spec : ¬ ∀ (rc : CiConfig) (w : World) (repos : Repos), Reads w repos →
    WalksFindCommits repos → Readable rc repos → ∀ spec ∈ buildTestSpecs rc w,
      ∀ commit ∈ spec.commits, commit ∈ getLiveCommits rc repos := by
  intro hall
  have hlive := hall _ _ _ gcWorld_reads gcRepos_findCommit gcConfig_readable
  have hnot : ((buildTestSpecs (gcConfig (some gcUserrc)) gcWorld).any (fun spec => spec.commits.any
      (fun commit => commit ∉ getLiveCommits (gcConfig (some gcUserrc)) gcRepos))) = true := by
    decide +kernel
  obtain ⟨spec, hspec, hcommit⟩ := List.any_eq_true.mp hnot
  obtain ⟨commit, hcommit, hnot⟩ := List.any_eq_true.mp hcommit
  exact of_decide_eq_true hnot (hlive spec hspec commit hcommit)

theorem protected_of_spec_tip : ∃ spec ∈ buildTestSpecs (gcConfig (some gcUserrc)) gcWorld,
    ∀ commit ∈ spec.commits.take 1, Protected (gcConfig (some gcUserrc)) gcRepos commit := by
  have hne : buildTestSpecs (gcConfig (some gcUserrc)) gcWorld ≠ [] := by
    intro hempty
    have hlen : (buildTestSpecs (gcConfig (some gcUserrc)) gcWorld).length = 1 := by decide +kernel
    simp [hempty] at hlen
  obtain ⟨spec, hspec⟩ := List.exists_mem_of_ne_nil _ hne
  exact ⟨spec, hspec, (protected_of_spec _ _ _ gcWorld_reads gcRepos_findCommit spec hspec).1⟩

end KtestCi
