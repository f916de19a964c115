import KtestCi.ResultsStore
import KtestCi.Utf8Slices
import Mathlib.Data.List.Dedup

/-!
# Resolving a commit by its first digits

`resolve_commit_prefix` looks through the names of 40 bytes in the output directory, which on
the server are the result directories of the commits. `commitdir_get_results_full` reads the
capnp file of a commit, whose name is longer. The two agree where directories and readable files
belong to the same commits. A client's cache holds capnp files only, and there nothing is found.
-/

namespace KtestCi

/-- How a fetched file gets into the cache; `std::fs::write` is not atomic. -/
inductive FetchWrite
  | failed | cut | written
  deriving DecidableEq

/-- The answer to a request for a capnp file. A body that cannot be received is `none`. -/
inductive Response
  | failed
  | notModified
  | ok (body : Option (CapnpFile × FetchWrite))
  | notFound
  | status (code : ℕ)

/-- Ask for the file of a commit and keep what comes. An error is `none`, and an answer that
there is no such file is `some false`. -/
def fetchCapnpCached (o : OutputDir) (commitId : Text) : Response → OutputDir × Option Bool
  | .failed => (o, none)
  | .notModified => (o, some true)
  | .ok none => (o, none)
  | .ok (some (_, .failed)) => (o, some true)
  | .ok (some (_, .cut)) =>
    ({ o with files := o.files.insert (capnpName commitId) .unreadable }, some true)
  | .ok (some (file, .written)) =>
    ({ o with files := o.files.insert (capnpName commitId) file }, some true)
  | .notFound => (o, some false)
  | .status _ => (o, none)

/-- The commits that are asked for: the first five, and the others if they are not cached. -/
def toFetch (o : OutputDir) (commitIds : List Text) : List Text :=
  commitIds.zipIdx.filterMap (fun ci =>
    if ci.2 < 5 then some ci.1 else if o.files.contains (capnpName ci.1) then none else some ci.1)

/-- The fetches run side by side, each on the file of its own commit. -/
def prefetchCapnp (o : OutputDir) (commitIds : List Text) (responses : Text → Response) : OutputDir :=
  (toFetch o commitIds).foldl (fun o c => (fetchCapnpCached o c (responses c)).1) o

def commitdirGetResultsFull (ciUrl : Option Response) (o : OutputDir) (commitId : Text) :
    OutputDir × Parsed CommitResultsCapnp :=
  let read (o : OutputDir) := match o.capnp commitId with
    | some file => parseTestResults file
    | none => .error
  match ciUrl with
  | none => (o, read o)
  | some response => match fetchCapnpCached o commitId response with
    | (o, some _) => (o, read o)
    | (o, none) => (o, .error)

/-- A cache that is filled by fetches only. The ids come from `git`, or from the command line in
full. -/
inductive FetchCache : OutputDir → Prop
  | empty : FetchCache ⟨∅, ∅⟩
  | fetch {o : OutputDir} (h : FetchCache o) (c : Text) (hc : 40 ≤ c.utf8Len) (response : Response) :
    FetchCache (fetchCapnpCached o c response).1
  | prefetch {o : OutputDir} (h : FetchCache o) (commitIds : List Text)
    (hids : ∀ c ∈ commitIds, 40 ≤ c.utf8Len) (responses : Text → Response) :
    FetchCache (prefetchCapnp o commitIds responses)

inductive Resolved
  | ok (commit : Text)
  | noResults (pre : Text)
  | ambiguous (pre : Text) (n : ℕ)
  | ioError
  deriving DecidableEq

/-- The text of the error. -/
def Resolved.message : Resolved → Option Text
  | .ok _ => none
  | .noResults pre => some ("no test results for commit ".toList ++ pre)
  | .ambiguous pre n => some ("ambiguous commit prefix ".toList ++ pre ++ " (".toList ++
      Text.ofInt n ++ " matches)".toList)
  | .ioError => none

def OutputDir.entryNames (o : OutputDir) : List Text := o.files.keys ++ o.commits.keys

theorem OutputDir.mem_entryNames {o : OutputDir} {name : Text} :
    name ∈ o.entryNames ↔ name ∈ o.files ∨ name ∈ o.commits := by
  simp [OutputDir.entryNames]

/-- The names that are taken for commits. Sorting and removing repetitions leaves each once. -/
def matchingNames (names : List Text) (pre : Text) : List Text :=
  (names.filter (fun name => Text.utf8Len name == 40 && pre.isPrefixOf name)).dedup

def resolveCommitPrefix (readDir : Option (List Text)) (pre : Text) : Resolved :=
  if 40 ≤ pre.utf8Len then .ok pre else
  match readDir with
  | none => .ioError
  | some names =>
    match matchingNames names pre with
    | [] => .noResults pre
    | [c] => .ok c
    | names => .ambiguous pre names.length

def OutputDir.Listed (o : OutputDir) (pre c : Text) : Prop :=
  c ∈ o.entryNames ∧ c.utf8Len = 40 ∧ pre <+: c

def OutputDir.HasResults (o : OutputDir) (pre c : Text) : Prop :=
  (TestResultsStore.isCommitId c = true ∧ ∃ r, (commitdirGetResultsFull none o c).2 = .ok r) ∧ pre <+: c

def Two (P : Text → Prop) : Prop := ∃ c c', c ≠ c' ∧ P c ∧ P c'

/-- The resolver answers according to the commits with results. -/
structure ResolvesRight (o : OutputDir) (pre : Text) : Prop where
  ok : ∀ c, resolveCommitPrefix (some o.entryNames) pre = .ok c ↔
    o.HasResults pre c ∧ ∀ c', o.HasResults pre c' → c' = c
  noResults : resolveCommitPrefix (some o.entryNames) pre = .noResults pre ↔ ∀ c, ¬ o.HasResults pre c
  ambiguous : (∃ n, resolveCommitPrefix (some o.entryNames) pre = .ambiguous pre n) ↔
    Two (o.HasResults pre)

section Resolving

variable {o : OutputDir} {pre : Text}

theorem resolveCommitPrefix_cases (o : OutputDir) (h : pre.utf8Len < 40) :
    (resolveCommitPrefix (some o.entryNames) pre = .noResults pre ∧ ∀ c, ¬ o.Listed pre c) ∨
    (∃ c, resolveCommitPrefix (some o.entryNames) pre = .ok c ∧ ∀ c', o.Listed pre c' ↔ c' = c) ∨
    (∃ n, resolveCommitPrefix (some o.entryNames) pre = .ambiguous pre n ∧ Two (o.Listed pre)) := by
  have hmem : ∀ c, c ∈ matchingNames o.entryNames pre ↔ o.Listed pre c := by
    intro c
    simp [matchingNames, OutputDir.Listed, List.isPrefixOf_iff_prefix]
  have hnodup : (matchingNames o.entryNames pre).Nodup := List.nodup_dedup _
  simp only [resolveCommitPrefix, if_neg (not_le.mpr h)]
  cases hnames : matchingNames o.entryNames pre with
  | nil =>
    rw [hnames] at hmem
    exact .inl ⟨rfl, fun c hc => by simpa using (hmem c).mpr hc⟩
  | cons c rest => cases rest with
    | nil =>
      rw [hnames] at hmem
      exact .inr (.inl ⟨c, rfl, fun c' => by simp [← hmem]⟩)
    | cons c' rest =>
      rw [hnames] at hmem hnodup
      have hne : c ≠ c' := by
        rintro rfl
        simp at hnodup
      exact .inr (.inr ⟨_, rfl, c, c', hne, (hmem c).mp (by simp), (hmem c').mp (by simp)⟩)

theorem not_resolvesRight_of_long (hlength : pre.length < 40) (h : 40 ≤ pre.utf8Len) :
    ¬ ResolvesRight o pre := by
  intro hright
  have hresolve : resolveCommitPrefix (some o.entryNames) pre = .ok pre := by
    simp [resolveCommitPrefix, h]
  have hid := ((hright.ok pre).mp hresolve).1.1.1
  simp only [TestResultsStore.isCommitId, Bool.and_eq_true, decide_eq_true_eq] at hid
  omega

theorem resolvesRight_iff_of_noResults
    (h : resolveCommitPrefix (some o.entryNames) pre = .noResults pre) :
    ResolvesRight o pre ↔ ∀ c, ¬ o.HasResults pre c := by
  constructor
  · intro hright
    exact hright.noResults.mp h
  · intro hnone
    refine ⟨?_, ?_, ?_⟩
    · intro c
      simp [h, hnone c]
    · exact ⟨fun _ => hnone, fun _ => h⟩
    · simp only [h, reduceCtorEq, exists_false, false_iff]
      rintro ⟨c, c', -, hc, -⟩
      exact hnone c hc

theorem resolvesRight_iff_of_ok {c : Text} (h : resolveCommitPrefix (some o.entryNames) pre = .ok c) :
    ResolvesRight o pre ↔ ∀ c', o.HasResults pre c' ↔ c' = c := by
  constructor
  · intro hright c'
    obtain ⟨hc, hunique⟩ := (hright.ok c).mp h
    refine ⟨hunique c', ?_⟩
    rintro rfl
    exact hc
  · intro hone
    refine ⟨?_, ?_, ?_⟩
    · intro c'
      rw [h, Resolved.ok.injEq]
      constructor
      · rintro rfl
        exact ⟨(hone c).mpr rfl, fun c' hc' => (hone c').mp hc'⟩
      · rintro ⟨hc', -⟩
        exact ((hone c').mp hc').symm
    · simp only [h, reduceCtorEq, false_iff, not_forall, not_not]
      exact ⟨c, (hone c).mpr rfl⟩
    · simp only [h, reduceCtorEq, exists_false, false_iff]
      rintro ⟨c₁, c₂, hne, h₁, h₂⟩
      exact hne (((hone c₁).mp h₁).trans ((hone c₂).mp h₂).symm)

theorem resolvesRight_iff_of_ambiguous {n : ℕ}
    (h : resolveCommitPrefix (some o.entryNames) pre = .ambiguous pre n) :
    ResolvesRight o pre ↔ Two (o.HasResults pre) := by
  constructor
  · intro hright
    exact hright.ambiguous.mp ⟨n, h⟩
  · intro htwo
    obtain ⟨c₁, c₂, hne, h₁, h₂⟩ := id htwo
    refine ⟨?_, ?_, ?_⟩
    · intro c
      simp only [h, reduceCtorEq, false_iff]
      rintro ⟨-, hunique⟩
      exact hne ((hunique c₁ h₁).trans (hunique c₂ h₂).symm)
    · simp only [h, reduceCtorEq, false_iff, not_forall, not_not]
      exact ⟨c₁, h₁⟩
    · exact ⟨fun _ => htwo, fun _ => ⟨n, h⟩⟩

/-- The names and the results are those of the same commits, or there are several of both. -/
def OutputDir.Consistent (o : OutputDir) (pre : Text) : Prop :=
  (∀ c, o.Listed pre c ↔ o.HasResults pre c) ∨ Two (o.Listed pre) ∧ Two (o.HasResults pre)

theorem resolvesRight_iff_consistent (o : OutputDir) (h : pre.utf8Len < 40) :
    ResolvesRight o pre ↔ o.Consistent pre := by
  rcases resolveCommitPrefix_cases o h with ⟨hres, hnone⟩ | ⟨c, hres, hone⟩ | ⟨n, hres, htwo⟩
  · rw [resolvesRight_iff_of_noResults hres]
    constructor
    · intro hnot
      exact .inl (fun c => iff_of_false (hnone c) (hnot c))
    · rintro (hsame | ⟨⟨c, -, -, hc, -⟩, -⟩)
      · exact fun c hc => hnone c ((hsame c).mpr hc)
      · exact absurd hc (hnone c)
  · rw [resolvesRight_iff_of_ok hres]
    constructor
    · intro hresults
      exact .inl (fun c' => (hone c').trans (hresults c').symm)
    · rintro (hsame | ⟨⟨c₁, c₂, hne, h₁, h₂⟩, -⟩)
      · exact fun c' => (hsame c').symm.trans (hone c')
      · exact absurd (((hone c₁).mp h₁).trans ((hone c₂).mp h₂).symm) hne
  · rw [resolvesRight_iff_of_ambiguous hres]
    constructor
    · intro hresults
      exact .inr ⟨htwo, hresults⟩
    · rintro (hsame | ⟨-, hresults⟩)
      · obtain ⟨c₁, c₂, hne, h₁, h₂⟩ := htwo
        exact ⟨c₁, c₂, hne, (hsame c₁).mp h₁, (hsame c₂).mp h₂⟩
      · exact hresults

end Resolving

/-- No name of 40 bytes. -/
structure FilesOnly (o : OutputDir) : Prop where
  commits : o.commits = ∅
  files : ∀ name ∈ o.files, 40 < Text.utf8Len name

theorem utf8Len_capnpName {c : Text} (h : 40 ≤ c.utf8Len) : 40 < Text.utf8Len (capnpName c) := by
  have hlen : Text.utf8Len (capnpName c) = c.utf8Len + 6 := by
    rw [capnpName, Text.utf8Len_append]
    rfl
  omega

theorem FilesOnly.insert {o : OutputDir} (h : FilesOnly o) {c : Text} (hc : 40 ≤ c.utf8Len)
    (file : CapnpFile) : FilesOnly { o with files := o.files.insert (capnpName c) file } where
  commits := h.commits
  files := by
    intro name hname
    obtain ⟨file', hfile⟩ := TextMap.mem_iff_exists.mp hname
    rw [TextMap.getElem?_insert] at hfile
    split_ifs at hfile with heq
    · exact heq ▸ utf8Len_capnpName hc
    · exact h.files name (TextMap.mem_iff_exists.mpr ⟨file', hfile⟩)

theorem FilesOnly.fetch {o : OutputDir} (h : FilesOnly o) {c : Text} (hc : 40 ≤ c.utf8Len)
    (response : Response) : FilesOnly (fetchCapnpCached o c response).1 := by
  cases response with
  | failed => exact h
  | notModified => exact h
  | ok body => cases body with
    | none => exact h
    | some body =>
      obtain ⟨file, write⟩ := body
      cases write with
      | failed => exact h
      -- a file that is cut off has the name of a whole one
      | cut => exact h.insert hc .unreadable
      | written => exact h.insert hc file
  | notFound => exact h
  | status code => exact h

theorem mem_of_mem_toFetch {o : OutputDir} {commitIds : List Text} {c : Text}
    (h : c ∈ toFetch o commitIds) : c ∈ commitIds := by
  obtain ⟨⟨c', i⟩, hmem, hc⟩ := List.mem_filterMap.mp h
  have hmem' := List.fst_mem_of_mem_zipIdx hmem
  simp only at hc
  split_ifs at hc
  · exact Option.some.inj hc ▸ hmem'
  · exact Option.some.inj hc ▸ hmem'

theorem FilesOnly.foldl_fetch {o : OutputDir} (h : FilesOnly o) (responses : Text → Response)
    {commitIds : List Text} (hids : ∀ c ∈ commitIds, 40 ≤ c.utf8Len) :
    FilesOnly (commitIds.foldl (fun o c => (fetchCapnpCached o c (responses c)).1) o) := by
  induction commitIds generalizing o with
  | nil => exact h
  | cons c commitIds ih =>
    rw [List.forall_mem_cons] at hids
    exact ih (h.fetch hids.1 (responses c)) hids.2

theorem FetchCache.filesOnly {o : OutputDir} (h : FetchCache o) : FilesOnly o := by
  induction h with
  | empty => exact ⟨rfl, by simp⟩
  | fetch h c hc response ih => exact ih.fetch hc response
  | prefetch h commitIds hids responses ih =>
    exact ih.foldl_fetch responses (fun c hc => hids c (mem_of_mem_toFetch hc))

theorem FilesOnly.not_listed {o : OutputDir} (h : FilesOnly o) (pre c : Text) : ¬ o.Listed pre c := by
  rintro ⟨hmem, hlen, -⟩
  rw [OutputDir.mem_entryNames, h.commits] at hmem
  have hfile : c ∈ o.files := by simpa using hmem
  have hlong := h.files c hfile
  omega

theorem FetchCache.resolve {cache : OutputDir} (h : FetchCache cache) {pre : Text}
    (hlen : pre.utf8Len < 40) : resolveCommitPrefix (some cache.entryNames) pre = .noResults pre := by
  have hnone := h.filesOnly.not_listed pre
  rcases resolveCommitPrefix_cases cache hlen with ⟨hres, -⟩ | ⟨c, -, hone⟩ | ⟨n, -, c, c', -, hc, -⟩
  · exact hres
  · exact absurd ((hone c).mpr rfl) (hnone c)
  · exact absurd hc (hnone c)

/-- The answer for a short prefix is right exactly if it has less than 40 bytes too, and the names
and the results in the directory are those of the same commits or there are several of both. In a
cache that is filled by fetches it is right exactly if there are no results at all. -/
theorem resolveCommitPrefix_right_iff (pre : Text) (hpre : pre.length < 40) :
    (∀ o, ResolvesRight o pre ↔ pre.utf8Len < 40 ∧ o.Consistent pre) ∧
      ∀ cache, FetchCache cache →
        (ResolvesRight cache pre ↔ pre.utf8Len < 40 ∧ ∀ c, ¬ cache.HasResults pre c) := by
  by_cases hlen : pre.utf8Len < 40
  · refine ⟨?_, ?_⟩
    · intro o
      simp [resolvesRight_iff_consistent o hlen, hlen]
    · intro cache hcache
      simp [resolvesRight_iff_of_noResults (hcache.resolve hlen), hlen]
  · have hwrong : ∀ o, ¬ ResolvesRight o pre := fun o => not_resolvesRight_of_long hpre (not_lt.mp hlen)
    exact ⟨fun o => iff_of_false (hwrong o) (fun h => hlen h.1),
      fun cache _ => iff_of_false (hwrong cache) (fun h => hlen h.1)⟩

def sampleCommit : Text := List.replicate 40 'a'

def sampleFile : CapnpFile := .message (resultsMessage sampleCommit none ∅)

/-- The results of one commit have been fetched, and its first digits are not found. -/
theorem fetched_commit_not_resolved :
    let cache := (fetchCapnpCached ⟨∅, ∅⟩ sampleCommit (.ok (some (sampleFile, .written)))).1
    let pre := "aaaaaaaa".toList
    FetchCache cache ∧ cache.HasResults pre sampleCommit ∧
      resolveCommitPrefix (some cache.entryNames) pre = .noResults pre ∧ ¬ ResolvesRight cache pre := by
  intro cache pre
  have hcache : FetchCache cache := .fetch .empty sampleCommit (by decide) _
  have hresults : cache.HasResults pre sampleCommit := by
    have hfile : cache.capnp sampleCommit = some sampleFile := by
      simp [cache, fetchCapnpCached, OutputDir.capnp]
    refine ⟨⟨by decide, ?_⟩, by decide⟩
    simp only [commitdirGetResultsFull, hfile, sampleFile, parseTestResults_resultsMessage]
    exact ⟨_, rfl⟩
  have hresolve : resolveCommitPrefix (some cache.entryNames) pre = .noResults pre :=
    hcache.resolve (by decide)
  refine ⟨hcache, hresults, hresolve, ?_⟩
  intro hright
  exact hright.noResults.mp hresolve sampleCommit hresults

/-- On the server, with the directory and the file of one commit. -/
theorem resolveCommitPrefix_right_sample :
    let o : OutputDir := ⟨(∅ : TextMap CapnpFile).insert (capnpName sampleCommit) sampleFile,
      (∅ : TextMap (TextMap ResultDir)).insert sampleCommit ∅⟩
    ResolvesRight o "aaaaaaaa".toList := by
  intro o
  refine ((resolveCommitPrefix_right_iff "aaaaaaaa".toList (by decide)).1 o).mpr ⟨by decide, .inl ?_⟩
  have hcapnp : ∀ c, o.capnp c = if sampleCommit = c then some sampleFile else none := by
    intro c
    rw [OutputDir.capnp, TextMap.getElem?_insert]
    by_cases hc : sampleCommit = c
    · simp [hc]
    · have hname : capnpName sampleCommit ≠ capnpName c := fun h => hc (OutputDir.capnpName_inj h)
      simp [hc, hname]
  have hlisted : sampleCommit ∈ o.entryNames := OutputDir.mem_entryNames.mpr (.inr (by simp [o]))
  intro c
  constructor
  · rintro ⟨hmem, hlen, hpre⟩
    have hc : c = sampleCommit := by
      rcases OutputDir.mem_entryNames.mp hmem with hfile | hdir
      · obtain ⟨f, hf⟩ := TextMap.mem_iff_exists.mp hfile
        rw [TextMap.getElem?_insert] at hf
        split_ifs at hf with hname
        · rw [← hname] at hlen
          exact absurd hlen (by decide)
        · simp at hf
      · obtain ⟨d, hd⟩ := TextMap.mem_iff_exists.mp hdir
        rw [TextMap.getElem?_insert] at hd
        split_ifs at hd with hname
        · exact hname.symm
        · simp at hd
    subst hc
    refine ⟨⟨by decide, ?_⟩, hpre⟩
    simp only [commitdirGetResultsFull, hcapnp, if_pos, sampleFile, parseTestResults_resultsMessage]
    exact ⟨_, rfl⟩
  · rintro ⟨⟨-, r, hr⟩, hpre⟩
    by_cases hc : sampleCommit = c
    · subst hc
      exact ⟨hlisted, by decide, hpre⟩
    · simp [commitdirGetResultsFull, hcapnp, hc] at hr

end KtestCi
