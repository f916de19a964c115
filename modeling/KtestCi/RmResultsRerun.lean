import KtestCi.DaemonJobs
import KtestCi.DesiredJobsOrder
import KtestCi.ResultsStoreRestart
import KtestCi.RmResults

/-!
# When a removed result is run again

The daemon decides what to run, and what it publishes, from its memory alone. A result that
`rm-results` removed is therefore run again, and stays out of the commit's file, exactly
when the daemon's memory had no entry for it.
-/

namespace KtestCi
namespace RmResults

open EventRuns

variable {c k : Text}

theorem resultDir_removePath (o : OutputDir) (commit name : Text) (remains : Option ResultDir) :
    (removePath o commit name remains).resultDir c k =
      if commit = c ∧ name = k then (o.resultDir c k).bind (fun _ => remains)
      else o.resultDir c k := by
  unfold removePath OutputDir.resultDir
  rw [Std.ExtTreeMap.getElem?_modify]
  by_cases hc : commit = c
  · subst hc
    cases o.commits[commit]? with
    | none => simp
    | some dirs =>
      by_cases hk : name = k
      · simp [hk]
      · simp [Std.ExtTreeMap.getElem?_alter, hk]
  · simp [hc]

theorem getElem?_addResult {testdir : Option ResultDir} {name : Text} {results : TestResultsMap}
    (h : name ≠ k) : (addResult testdir name results)[k]? = results[k]? := by
  unfold addResult
  split
  · rfl
  · rw [TextMap.getElem?_insert, if_neg h]

/-- The process will not find the entry when it reads the commit. -/
def Stage.Avoids (c k : Text) : Stage → Prop
  | reading commit names results _ => commit = c → k ∉ names ∧ results[k]? = none
  | _ => True

/-- The result directory is gone, and the memory is as it was. -/
structure Gone (c k : Text) (r : Option TestResult) (sys : Shared) : Prop where
  dir : sys.store.outputDir.resultDir c k = none
  memory : (sys.store.results c)[k]? = r
  rm : sys.rm.Avoids c k

theorem resultDir_congr {o o' : OutputDir} (h : o'.commits = o.commits) :
    o'.resultDir c k = o.resultDir c k := by
  unfold OutputDir.resultDir
  rw [h]

theorem notMem_keys_of_resultDir {o : OutputDir} (h : o.resultDir c k = none) :
    k ∉ (o.commits[c]?.getD ∅).keys := by
  rw [Std.ExtTreeMap.mem_keys, Std.ExtTreeMap.mem_iff_isSome_getElem?]
  unfold OutputDir.resultDir at h
  cases hdirs : o.commits[c]? with
  | none => simp
  | some dirs =>
    rw [hdirs] at h
    simpa using h

/-- A step that does not touch the subtest leaves its directory removed and its entry in
memory as it is. -/
theorem Gone.step {r : Option TestResult} {sys sys' : Shared} {e : Event} (h : Gone c k r sys)
    (he : ¬ e.Touches c k) (hstep : step sys e = some sys') : Gone c k r sys' := by
  cases moves_of_step hstep with
  | update io commit updates =>
    exact ⟨(resultDir_congr (TestResultsStore.commits_update _ _ _ _)).trans h.dir,
      (TestResultsStore.getElem?_results_update he).trans h.memory, h.rm⟩
  | batchWrite commit key dir =>
    have hne : ¬ (commit = c ∧ key = k) := he
    refine ⟨?_, h.memory, h.rm⟩
    rw [OutputDir.resultDir_setResultDir, if_neg hne]
    exact h.dir
  | rmRemove remains hrm =>
    refine ⟨?_, h.memory, trivial⟩
    rw [resultDir_removePath, h.dir]
    simp
  | rmUpdate order hrm hperm => exact ⟨h.dir, h.memory, trivial⟩
  | rmList hrm =>
    refine ⟨h.dir, h.memory, ?_⟩
    rintro rfl
    exact ⟨notMem_keys_of_resultDir h.dir, by simp⟩
  | @rmRead commit name names todo results hrm =>
    refine ⟨h.dir, h.memory, ?_⟩
    intro hc
    have hold : k ∉ name :: names ∧ results[k]? = none := by
      have havoids := h.rm
      rw [hrm] at havoids
      exact havoids hc
    have hname : name ≠ k := fun heq => hold.1 (heq ▸ List.mem_cons_self)
    exact ⟨fun hm => hold.1 (List.mem_cons_of_mem name hm), (getElem?_addResult hname).trans hold.2⟩
  | rmWrite io hrm =>
    exact ⟨(resultDir_congr (OutputDir.commits_resultsToCapnp _ _ _ _ _)).trans h.dir, h.memory,
      trivial⟩

theorem notMem_decoded_resultsToCapnp {o : OutputDir} {io : CapnpWrite} {commit : Text}
    {m : TestResultsMap} (hold : k ∉ o.decoded c) (hm : commit = c → m[k]? = none) :
    k ∉ (o.resultsToCapnp io commit none m).decoded c := by
  have hfile := o.capnp_resultsToCapnp io commit none m c
  split_ifs at hfile with hw
  · rw [OutputDir.decoded_of_message hfile, Std.ExtTreeMap.mem_iff_isSome_getElem?,
      TestResultsMap.getElem?_published, hm hw.1]
    simp
  · rwa [TestResultsStore.decoded_congr hfile]

/-- The entry is neither in memory nor in the commit's file. -/
structure StaysGone (c k : Text) (sys : Shared) : Prop extends Gone c k none sys where
  file : k ∉ sys.store.outputDir.decoded c

theorem StaysGone.step {sys sys' : Shared} {e : Event} (h : StaysGone c k sys)
    (he : ¬ e.Touches c k) (hstep : step sys e = some sys') : StaysGone c k sys' := by
  refine ⟨h.toGone.step he hstep, ?_⟩
  cases moves_of_step hstep with
  | update io commit updates =>
    unfold TestResultsStore.update
    split_ifs with hempty
    · exact h.file
    · apply notMem_decoded_resultsToCapnp h.file
      rintro rfl
      have hk : k ∉ updates := fun hk => he ⟨rfl, hk⟩
      exact (Std.ExtTreeMap.getElem?_union_of_not_mem_right hk).trans h.memory
  | batchWrite | rmRemove | rmUpdate | rmList | rmRead => exact h.file
  | rmWrite io hrm =>
    apply notMem_decoded_resultsToCapnp h.file
    intro hc
    have havoids := h.rm
    rw [hrm] at havoids
    exact (havoids hc).2

/-- The subtest of a removed result is wanted again, and its entry is not published. -/
structure Forgotten (s : TestResultsStore) (c k : Text) : Prop where
  emitted : ∀ (rc : CiConfig) (w : World) (durations : Option (List Duration))
    (results : Text → TestResultsMap) (limit : ℕ), results c = s.results c →
      (candidates (JobHints.ofConfig rc durations) results (buildTestSpecs rc w)).length ≤ limit →
        ∀ spec age subtest kernel, IsCell (buildTestSpecs rc w) spec age c subtest kernel →
          subtestResultKey spec.test subtest kernel spec.env = k →
            ∃ j ∈ desiredJobs rc w durations results limit,
              j.key = ⟨spec.user, spec.repo, c, kernel, spec.env, spec.test, subtest⟩
  unpublished : k ∉ s.outputDir.decoded c

theorem StaysGone.forgotten {sys : Shared} (h : StaysGone c k sys) : Forgotten sys.store c k where
  emitted := by
    intro rc w durations results limit hview hlimit spec age subtest kernel hcell hkey
    have hwanted : jobWanted (recorded results
        (cellJob (JobHints.ofConfig rc durations) spec age c subtest kernel).key) = true := by
      simp only [recorded, cellJob, JobKey.resultKey, hkey, hview, h.memory]
      rfl
    exact exists_mem_desiredJobsOf hlimit (mem_candidates_of_key hcell rfl hwanted)
  unpublished := h.file

theorem gone_of_rmRemove {sys sys' : Shared} {todo : List (Text × Text)} {affected : List Text}
    (hrm : sys.rm = .removing ((c, k) :: todo) affected)
    (hstep : step sys (.rmRemove none) = some sys') :
    Gone c k ((sys.store.results c)[k]?) sys' := by
  simp only [RmResults.step, hrm] at hstep
  obtain rfl := Option.some.inj hstep
  refine ⟨?_, rfl, trivial⟩
  rw [resultDir_removePath]
  cases sys.store.outputDir.resultDir c k <;> simp

/-- After the directory is removed and until the commit's file is rewritten. -/
theorem gone_of_run {r : Option TestResult} {sys sys' : Shared} {events : List Event}
    (h : Gone c k r sys) (hev : ∀ e ∈ events, ¬ e.Touches c k)
    (hrun : run step sys events = some sys') : Gone c k r sys' :=
  run_invariant (fun _ _ _ he hs hstep => hs.step he hstep) hev h hrun

theorem staysGone_of_run {sys sys' : Shared} {events : List Event} (h : StaysGone c k sys)
    (hev : ∀ e ∈ events, ¬ e.Touches c k) (hrun : run step sys events = some sys') :
    StaysGone c k sys' :=
  run_invariant (fun _ _ _ he hs hstep => hs.step he hstep) hev h hrun

theorem file_of_rmWrite {r : Option TestResult} {sys sys' : Shared} {results : TestResultsMap}
    {todo : List Text} {io : CapnpWrite} (h : Gone c k r sys)
    (hrm : sys.rm = .reading c [] results todo) (hio : io.outcome = .written)
    (hstep : step sys (.rmWrite io) = some sys') : k ∉ sys'.store.outputDir.decoded c := by
  have havoids := h.rm
  rw [hrm] at havoids
  simp only [RmResults.step, hrm] at hstep
  obtain rfl := Option.some.inj hstep
  have hfile := sys.store.outputDir.capnp_resultsToCapnp io c none results c
  rw [if_pos ⟨rfl, hio⟩] at hfile
  rw [OutputDir.decoded_of_message hfile, Std.ExtTreeMap.mem_iff_isSome_getElem?,
    TestResultsMap.getElem?_published, (havoids rfl).2]
  simp

theorem mem_decoded_of_update {s : TestResultsStore} {r : TestResult} {k' : Text}
    (r' : TestResult) (hr : (s.results c)[k]? = some r) (hk : k' ≠ k) :
    k ∈ (s.update ⟨[], .written⟩ c ((∅ : TestResultsMap).insert k' r')).outputDir.decoded c := by
  have hne : ((∅ : TestResultsMap).insert k' r').isEmpty = false := by simp
  have hk' : k ∉ (∅ : TestResultsMap).insert k' r' := by
    rw [Std.ExtTreeMap.mem_iff_isSome_getElem?, TextMap.getElem?_insert, if_neg hk]
    simp
  have hfile := OutputDir.capnp_resultsToCapnp s.outputDir ⟨[], .written⟩ c none
    (s.byCommit[c]?.getD ∅ ∪ (∅ : TestResultsMap).insert k' r') c
  rw [if_pos ⟨rfl, rfl⟩] at hfile
  have hmem : (s.byCommit[c]?.getD ∅ ∪ (∅ : TestResultsMap).insert k' r')[k]? = some r :=
    (Std.ExtTreeMap.getElem?_union_of_not_mem_right hk').trans hr
  unfold TestResultsStore.update
  rw [if_neg (by simp [hne]), TestResultsStore.replace, OutputDir.decoded_of_message hfile,
    Std.ExtTreeMap.mem_iff_isSome_getElem?, TestResultsMap.getElem?_published, hmem]
  rfl

/-- Whatever the daemon does meanwhile: a result that `rm-results` removed is wanted again
and stays unpublished if and only if the daemon's memory had no entry for it. -/
theorem removed_result_forgotten_iff {sys₀ sys₁ sys₂ : Shared} {c k : Text}
    {todo : List (Text × Text)} {affected todo' : List Text} {results : TestResultsMap}
    {events : List Event} {io : CapnpWrite}
    (hremoving : sys₀.rm = .removing ((c, k) :: todo) affected)
    (hrun : run step sys₀ (.rmRemove none :: events) = some sys₁)
    (hevents : ∀ e ∈ events, ¬ e.Touches c k)
    (hreading : sys₁.rm = .reading c [] results todo') (hio : io.outcome = .written)
    (hwrite : step sys₁ (.rmWrite io) = some sys₂) :
    (∀ later sys₃, (∀ e ∈ later, ¬ e.Touches c k) → run step sys₂ later = some sys₃ →
      Forgotten sys₃.store c k) ↔ sys₀.store.lookup c k = none := by
  obtain ⟨sys', hremove, hrun⟩ := run_cons_eq_some_iff.mp hrun
  have hgone₁ := gone_of_run (gone_of_rmRemove hremoving hremove) hevents hrun
  have hgone₂ : Gone c k ((sys₀.store.results c)[k]?) sys₂ :=
    hgone₁.step (e := .rmWrite io) (fun h => h) hwrite
  rw [TestResultsStore.lookup_eq_results, Option.map_eq_none_iff]
  constructor
  · intro hforgotten
    cases hr : (sys₀.store.results c)[k]? with
    | none => rfl
    | some r =>
      have hk : 'x' :: k ≠ k := by simp
      have hmem := mem_decoded_of_update r (hgone₂.memory.trans hr) hk
      refine absurd hmem (hforgotten [.update ⟨[], .written⟩ c
        ((∅ : TestResultsMap).insert ('x' :: k) r)] _ ?_ rfl).unpublished
      intro e he
      obtain rfl := List.mem_singleton.mp he
      rintro ⟨-, hin⟩
      rw [Std.ExtTreeMap.mem_iff_isSome_getElem?, TextMap.getElem?_insert, if_neg hk] at hin
      simp at hin
  · intro hnone later sys₃ hlater hrun₃
    rw [hnone] at hgone₂
    have hstays : StaysGone c k sys₂ := ⟨hgone₂, file_of_rmWrite hgone₁ hreading hio hwrite⟩
    exact (staysGone_of_run hstays hlater hrun₃).forgotten

def bootSystem (byCommit : TextMap TestResultsMap) : Shared where
  store :=
    { outputDir :=
        { files := ∅
          commits := (∅ : TextMap (TextMap ResultDir)).insert "c0ffee".toList
            ((∅ : TextMap ResultDir).insert "boot.boot".toList
              ((∅ : ResultDir).insert "status".toList ⟨some "PASSED\n".toList, 7⟩)) }
      byCommit := byCommit }
  rm := .removing [("c0ffee".toList, "boot.boot".toList)] []

def bootRemoval : List Event := [.rmRemove none, .rmUpdate ["c0ffee".toList], .rmList]

theorem removed_result_forgotten_restarted :
    ∃ sys₁ sys₂, run step (bootSystem ∅) bootRemoval = some sys₁ ∧
      step sys₁ (.rmWrite ⟨"9.0".toList, .written⟩) = some sys₂ ∧
      ∀ later sys₃, (∀ e ∈ later, ¬ e.Touches "c0ffee".toList "boot.boot".toList) →
        run step sys₂ later = some sys₃ →
          Forgotten sys₃.store "c0ffee".toList "boot.boot".toList := by
  have hreading : (run step (bootSystem ∅) bootRemoval).map Shared.rm =
      some (.reading "c0ffee".toList [] ∅ []) := rfl
  obtain ⟨sys₁, hrun, hrm⟩ := Option.map_eq_some_iff.mp hreading
  obtain ⟨sys₂, hwrite⟩ : ∃ sys₂, step sys₁ (.rmWrite ⟨"9.0".toList, .written⟩) = some sys₂ := by
    simp [step, hrm]
  refine ⟨sys₁, sys₂, hrun, hwrite, ?_⟩
  refine (removed_result_forgotten_iff (c := "c0ffee".toList) (k := "boot.boot".toList) rfl hrun ?_
    hrm rfl hwrite).mpr rfl
  intro e he
  simp only [List.mem_cons, List.not_mem_nil, or_false] at he
  rcases he with rfl | rfl <;> exact fun h => h

/-- A daemon that remembers the removed result does not run it again, and publishes it again
with the next result of the commit. -/
theorem removed_result_published_again :
    let remembered := (∅ : TextMap TestResultsMap).insert "c0ffee".toList
      ((∅ : TestResultsMap).insert "boot.boot".toList ⟨.passed, 7, 3⟩)
    (desiredJobs bootConfig bootWorld none (fun _ => ∅) 2000).map Job.key = [bootKey] ∧
    ∃ sys₂ sys₃,
      run step (bootSystem remembered) (bootRemoval ++ [.rmWrite ⟨"9.0".toList, .written⟩]) =
        some sys₂ ∧
      desiredJobs bootConfig bootWorld none sys₂.store.results 2000 = [] ∧
      run step sys₂ [.update ⟨"8.0".toList, .written⟩ "c0ffee".toList
        ((∅ : TestResultsMap).insert "boot.kexec".toList ⟨.passed, 9, 4⟩)] = some sys₃ ∧
      "boot.boot".toList ∈ sys₃.store.outputDir.decoded "c0ffee".toList := by
  refine ⟨by decide +kernel, _, _, rfl, by decide +kernel, rfl, by decide +kernel⟩

end RmResults
end KtestCi
