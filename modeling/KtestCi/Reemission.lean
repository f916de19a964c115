import KtestCi.BatchAlone
import KtestCi.DesiredJobsOrder

/-!
# Whether a job is emitted again after its batch

A batch marks results under the test, kernel and environment of its first job, at that job's
commit. A job among these results has a status afterwards and is not wanted again unless the
status is unknown. There are two exceptions: the batch returns before it marks anything if
workers cannot check out the repository, and a job that shares the batch key without sharing
the fields is not marked. Nothing records a status for such a job.
-/

namespace KtestCi
namespace BatchRun

open EventRuns

/-- A batch that was claimed from submitted jobs with one batch key. -/
structure ClaimedFrom (rc : CiConfig) (js : List Job) (b : Batch) : Prop where
  payloads : b.jobs.map ClaimedJob.payload = js.map (fun j => (makeJobSpec rc j).params)
  batchKey : ∀ j ∈ js, ∀ j' ∈ js, (makeJobSpec rc j).batchKey = (makeJobSpec rc j').batchKey

/-- The batch comes to mark the job's result. -/
def Batch.Marks (b : Batch) (key : JobKey) : Prop :=
  b.params.repoUrl ≠ [] ∧ b.commit = key.commit ∧ key.resultKey ∈ b.keys

/-- Between the steps of a batch, nothing else touches its results or those of its jobs. -/
def claimedStep (b : Batch) (x : TestResultsStore × Stage) : AloneEvent → Option (TestResultsStore × Stage)
  | .own e => aloneStep b x (.own e)
  | .other s =>
    if ∀ j ∈ b.jobs, s.lookup j.payload.commit j.payload.resultKey =
        x.1.lookup j.payload.commit j.payload.resultKey
    then aloneStep b x (.other s) else none

variable {rc : CiConfig} {js : List Job} {b : Batch}

theorem claimedStep_cases {x x' : TestResultsStore × Stage} {e : AloneEvent}
    (h : claimedStep b x e = some x') :
    (∃ e', e = .own e' ∧ Moves b x.1 x.2 e' x'.1 x'.2) ∨
      ∃ s, e = .other s ∧ Unaffected b x.1 s ∧ x' = (s, x.2) ∧
        ∀ j ∈ b.jobs, s.lookup j.payload.commit j.payload.resultKey =
          x.1.lookup j.payload.commit j.payload.resultKey := by
  cases e with
  | own e' => exact .inl ⟨e', rfl, moves_of_step b h⟩
  | other s =>
    simp only [claimedStep, aloneStep] at h
    split_ifs at h with hjobs hs
    exact .inr ⟨s, rfl, hs, (Option.some.inj h).symm, hjobs⟩

theorem ClaimedFrom.exists_job (h : ClaimedFrom rc js b) {j : Job} (hj : j ∈ js) :
    ∃ cj ∈ b.jobs, cj.payload = (makeJobSpec rc j).params := by
  have hpayload : (makeJobSpec rc j).params ∈ b.jobs.map ClaimedJob.payload := by
    rw [h.payloads]
    exact List.mem_map.mpr ⟨j, hj, rfl⟩
  obtain ⟨cj, hcj, hparams⟩ := List.mem_map.mp hpayload
  exact ⟨cj, hcj, hparams⟩

/-- Without null characters the batch key tells the fields of a job, so the batch has the
parameters of each of its jobs, but for the subtest. -/
theorem ClaimedFrom.params_eq (h : ClaimedFrom rc js b) (hnul : ∀ j ∈ js, NulFree j.key) {j : Job}
    (hj : j ∈ js) : (makeJobSpec rc j).params = { b.params with subtest := j.key.subtest } := by
  have hhead : b.params ∈ js.map (fun j => (makeJobSpec rc j).params) := by
    rw [← h.payloads]
    exact List.mem_map.mpr ⟨b.head, List.mem_cons_self, rfl⟩
  obtain ⟨j₀, hj₀, hparams⟩ := List.mem_map.mp hhead
  have hkey := eq_of_batchKey_eq (hnul j₀ hj₀) (hnul j hj) (h.batchKey j₀ hj₀ j hj)
  rw [← hparams]
  simp only [makeJobSpec]
  rw [hkey]

theorem ClaimedFrom.marks_iff (h : ClaimedFrom rc js b) (hnul : ∀ j ∈ js, NulFree j.key) {j : Job}
    (hj : j ∈ js) : b.Marks j.key ↔ (rc.ktest.repoPathUrl j.key.repo).getD [] ≠ [] := by
  have hparams := h.params_eq hnul hj
  have hurl : b.params.repoUrl = (rc.ktest.repoPathUrl j.key.repo).getD [] :=
    (congrArg JobParams.repoUrl hparams).symm
  have hcommit : b.commit = j.key.commit := (congrArg JobParams.commit hparams).symm
  have hkey : j.key.resultKey = b.key j.key.subtest := congrArg JobParams.resultKey hparams
  obtain ⟨cj, hcj, hpayload⟩ := h.exists_job hj
  have hsubtest : cj.payload.subtest = j.key.subtest := congrArg JobParams.subtest hpayload
  rw [Batch.Marks, hurl]
  refine and_iff_left ⟨hcommit, ?_⟩
  rw [Batch.mem_keys_iff, hkey, ← hsubtest]
  exact ⟨cj, hcj, rfl⟩

/-- Results that a batch has marked keep having a status. -/
def Marked (b : Batch) (x : TestResultsStore × Stage) : Prop :=
  match x.2 with
  | .start => True
  | .marking todo _ marks => ∀ k ∈ b.keys, k ∈ todo.map b.key ∨ ∃ r, marks[k]? = some r
  | _ => ∀ k ∈ b.keys, (x.1.lookup b.commit k).isSome = true

theorem isSome_lookup_update {s : TestResultsStore} {io : CapnpWrite} {c k : Text}
    {updates : TestResultsMap} (h : (s.lookup c k).isSome = true) :
    ((s.update io c updates).lookup c k).isSome = true := by
  cases hk : updates[k]? with
  | some r => simp [TestResultsStore.lookup_update_of_some hk]
  | none =>
    have hnot : k ∉ updates := by simpa using hk
    rwa [TestResultsStore.lookup_update_of_ne (fun h => hnot h.2)]

theorem marked_of_isSome {s : TestResultsStore} {st : Stage} (hst : ∀ todo now marks, st ≠ .marking todo now marks)
    (h : ∀ k ∈ b.keys, (s.lookup b.commit k).isSome = true) : Marked b (s, st) := by
  cases st with
  | start => trivial
  | marking todo now marks => exact absurd rfl (hst todo now marks)
  | _ => exact h

theorem Marked.moves {s s' : TestResultsStore} {st st' : Stage} {e : Event} (h : Marked b (s, st))
    (hurl : b.params.repoUrl ≠ []) (hm : Moves b s st e s' st') : Marked b (s', st') := by
  cases hm with
  | fatal now e hnil => exact absurd hnil hurl
  | start => exact fun k hk => .inl hk
  | mark st todo now marks w =>
    intro k hk
    rw [TextMap.getElem?_insert]
    split_ifs with heq
    · exact .inr ⟨_, rfl⟩
    · refine (h k hk).imp_left fun hmem => ?_
      exact (List.mem_cons.mp hmem).resolve_left (Ne.symm heq)
  | marked now marks io =>
    intro k hk
    obtain ⟨r, hr⟩ := (h k hk).resolve_left List.not_mem_nil
    simp [TestResultsStore.lookup_update_of_some hr]
  | setup outcome hsetup hok => cases hsetup <;> exact h
  | setupFailed outcome e hsetup hfail => cases hsetup <;> exact h
  | recorded remaining next verdicts didClean now io =>
    refine marked_of_isSome ?_ (fun k hk => isSome_lookup_update (h k hk))
    intro todo now' marks
    unfold afterVerdicts resume
    split_ifs <;> simp
  | failed => exact fun k hk => isSome_lookup_update (h k hk)
  | cleaned remaining now code =>
    refine marked_of_isSome ?_ h
    intro todo now' marks
    unfold resume
    split_ifs <;> simp
  | supervised | superviseFailed | pulled | pullFailed | read | cleanFailed | succeed | fail
  | lookupInprogress | lookupOther | failWrite => exact h

theorem Marked.step {x x' : TestResultsStore × Stage} {e : AloneEvent} (h : Marked b x)
    (hurl : b.params.repoUrl ≠ []) (hstep : claimedStep b x e = some x') : Marked b x' := by
  obtain ⟨e', rfl, hm⟩ | ⟨s, rfl, hs, rfl, -⟩ := claimedStep_cases hstep
  · exact h.moves hurl hm
  · obtain ⟨s₀, st⟩ := x
    cases st with
    | start => trivial
    | marking todo now marks => exact h
    | _ =>
      intro k hk
      rw [hs.lookup hk]
      exact h k hk

/-- No verdict of the batch at this stage is for the key. -/
def Misses (b : Batch) (k : Text) : Stage → Prop
  | .start | .teardown _ | .returned _ => True
  | .marking todo _ marks => k ∉ b.keys ∧ k ∉ todo.map b.key ∧ marks[k]? = none
  | .checkout _ | .syncKtest _ | .buildSupervisor _ | .prepare _ => k ∉ b.keys
  | .supervise remaining _ _ | .pulling remaining _ _ | .cleaning remaining _ => k ∉ remaining.map b.key
  | .collecting todo remaining next verdicts _ _ => k ∉ todo.map b.key ∧ k ∉ remaining.map b.key ∧
      k ∉ next.map b.key ∧ verdicts[k]? = none
  | .failing _ updates _ _ => updates[k]? = none
  | .failWrite job _ updates _ _ => job.payload.resultKey ≠ k ∧ updates[k]? = none

theorem misses_resume {k : Text} {remaining : List Text} (h : k ∉ remaining.map b.key) (didClean : Bool)
    (now : ℤ) : Misses b k (resume remaining didClean now) := by
  unfold resume
  split_ifs
  · trivial
  · exact h

theorem misses_afterVerdicts {k : Text} {remaining next : List Text} (hr : k ∉ remaining.map b.key)
    (hn : k ∉ next.map b.key) (didClean : Bool) (now : ℤ) :
    Misses b k (afterVerdicts remaining next didClean now) := by
  unfold afterVerdicts
  split_ifs
  · trivial
  · exact hr
  · exact misses_resume hn didClean now

/-- A result that the batch does not mark has the status that it had, which is not that of a
running job. -/
structure Untouched (b : Batch) (c k : Text) (status : Option TestStatus) (x : TestResultsStore × Stage) :
    Prop where
  lookup : x.1.lookup c k = status
  misses : b.commit = c → Misses b k x.2

theorem lookup_update_of_misses {s : TestResultsStore} {io : CapnpWrite} {c k : Text}
    {updates : TestResultsMap} (h : b.commit = c → updates[k]? = none) :
    (s.update io b.commit updates).lookup c k = s.lookup c k := by
  refine TestResultsStore.lookup_update_of_ne ?_
  rintro ⟨hc, hk⟩
  have hnot : k ∉ updates := by simpa using h hc
  exact hnot hk

theorem Untouched.moves {s s' : TestResultsStore} {st st' : Stage} {e : Event} {c k : Text}
    {status : Option TestStatus} (h : Untouched b c k status (s, st))
    (hmiss : b.params.repoUrl ≠ [] → b.commit = c → k ∉ b.keys)
    (hstatus : status ≠ some .inprogress) (hm : Moves b s st e s' st') :
    Untouched b c k status (s', st') := by
  obtain ⟨hlookup, hmisses⟩ := h
  cases hm with
  | fatal | succeed => exact ⟨hlookup, fun _ => trivial⟩
  | fail => exact ⟨hlookup, fun _ => Std.ExtTreeMap.getElem?_empty⟩
  | start now hurl =>
    refine ⟨hlookup, fun hc => ⟨hmiss hurl hc, hmiss hurl hc, ?_⟩⟩
    simp
  | mark st todo now marks w =>
    refine ⟨hlookup, fun hc => ?_⟩
    obtain ⟨hkeys, htodo, hmarks⟩ := hmisses hc
    rw [List.map_cons, List.mem_cons, not_or] at htodo
    exact ⟨hkeys, htodo.2, (TextMap.getElem?_insert _ _ _ _).trans ((if_neg (Ne.symm htodo.1)).trans hmarks)⟩
  | marked now marks io =>
    exact ⟨(lookup_update_of_misses fun hc => (hmisses hc).2.2).trans hlookup, fun hc => (hmisses hc).1⟩
  | setup outcome hsetup hok => cases hsetup <;> exact ⟨hlookup, hmisses⟩
  | setupFailed outcome e hsetup hfail => exact ⟨hlookup, fun _ => trivial⟩
  | supervised => exact ⟨hlookup, hmisses⟩
  | superviseFailed => exact ⟨hlookup, fun _ => trivial⟩
  | pulled remaining didClean now dirs =>
    exact ⟨hlookup, fun hc => ⟨hmisses hc, hmisses hc, by simp, by simp⟩⟩
  | pullFailed => exact ⟨hlookup, fun _ => trivial⟩
  | read st todo remaining next verdicts didClean now =>
    refine ⟨hlookup, fun hc => ?_⟩
    obtain ⟨htodo, hremaining, hnext, hverdicts⟩ := hmisses hc
    rw [List.map_cons, List.mem_cons, not_or] at htodo
    refine ⟨htodo.2, hremaining, ?_, ?_⟩
    · split_ifs
      · simpa using ⟨by simpa using hnext, htodo.1⟩
      · exact hnext
    · exact (TextMap.getElem?_insert _ _ _ _).trans ((if_neg (Ne.symm htodo.1)).trans hverdicts)
  | recorded remaining next verdicts didClean now io =>
    refine ⟨(lookup_update_of_misses fun hc => (hmisses hc).2.2.2).trans hlookup, fun hc => ?_⟩
    exact misses_afterVerdicts (hmisses hc).2.1 (hmisses hc).2.2.1 didClean now
  | cleaned remaining now code => exact ⟨hlookup, fun hc => misses_resume (hmisses hc) true now⟩
  | cleanFailed => exact ⟨hlookup, fun _ => trivial⟩
  | lookupInprogress j todo updates now e hin =>
    refine ⟨hlookup, fun hc => ⟨?_, hmisses hc⟩⟩
    rintro rfl
    exact hstatus (hlookup.symm.trans (hc ▸ hin))
  | lookupOther => exact ⟨hlookup, hmisses⟩
  | failWrite j todo updates now e w =>
    refine ⟨hlookup, fun hc => ?_⟩
    exact (TextMap.getElem?_insert _ _ _ _).trans ((if_neg (hmisses hc).1).trans (hmisses hc).2)
  | failed updates now e io =>
    exact ⟨(lookup_update_of_misses hmisses).trans hlookup, fun _ => trivial⟩

theorem Untouched.step {x x' : TestResultsStore × Stage} {e : AloneEvent} {j : ClaimedJob}
    {status : Option TestStatus} (h : Untouched b j.payload.commit j.payload.resultKey status x)
    (hj : j ∈ b.jobs)
    (hmiss : b.params.repoUrl ≠ [] → b.commit = j.payload.commit → j.payload.resultKey ∉ b.keys)
    (hstatus : status ≠ some .inprogress) (hstep : claimedStep b x e = some x') :
    Untouched b j.payload.commit j.payload.resultKey status x' := by
  obtain ⟨e', rfl, hm⟩ | ⟨s, rfl, -, rfl, hjobs⟩ := claimedStep_cases hstep
  · exact h.moves hmiss hstatus hm
  · exact ⟨(hjobs j hj).trans h.lookup, h.misses⟩

/-- The job is not emitted again, unless its status is unknown. -/
def NotReemitted (rc : CiConfig) (s : TestResultsStore) (key : JobKey) : Prop :=
  ∀ w durations limit, ∀ j ∈ desiredJobs rc w durations s.results limit, j.key = key →
    s.lookup key.commit key.resultKey = some .unknown

theorem recorded_eq_lookup (s : TestResultsStore) (key : JobKey) :
    recorded s.results key = s.lookup key.commit key.resultKey :=
  (TestResultsStore.lookup_eq_results s key.commit key.resultKey).symm

theorem lookup_of_emitted {w : World} {durations : Option (List Duration)} {s : TestResultsStore}
    {limit : ℕ} {j : Job} (h : j ∈ desiredJobs rc w durations s.results limit) :
    s.lookup j.key.commit j.key.resultKey = none ∨
      s.lookup j.key.commit j.key.resultKey = some .unknown := by
  obtain ⟨-, -, -, -, -, -, -, hw⟩ := mem_candidates_iff.mp (mem_candidates_of_mem_desiredJobsOf h)
  rwa [recorded_eq_lookup, jobWanted_iff] at hw

theorem not_notReemitted {w : World} {durations : Option (List Duration)} {s s' : TestResultsStore}
    {limit : ℕ} {j : Job} (h : j ∈ desiredJobs rc w durations s.results limit)
    (hnone : s'.lookup j.key.commit j.key.resultKey = none) : ¬ NotReemitted rc s' j.key := by
  intro hnot
  obtain ⟨spec, age, commit, subtest, kernel, hcell, rfl, -⟩ :=
    mem_candidates_iff.mp (mem_candidates_of_mem_desiredJobsOf h)
  have hwanted : jobWanted (recorded s'.results
      (cellJob (JobHints.ofConfig rc durations) spec age commit subtest kernel).key) = true := by
    rw [recorded_eq_lookup, hnone]
    rfl
  obtain ⟨j', hj', hkey⟩ := exists_mem_desiredJobsOf le_rfl (mem_candidates_of_key hcell rfl hwanted)
  have hunknown := hnot w durations _ j' hj' hkey
  rw [hnone] at hunknown
  simp at hunknown

/-- After its batch has returned, a job is not emitted again if and only if the batch came to mark
its result, or its status was unknown anyway. Without null characters in the keys, the batch comes
to mark its jobs exactly if their repository can be checked out from somewhere. -/
theorem notReemitted_iff (rc : CiConfig) (w : World) (durations : Option (List Duration))
    (limit : ℕ) (s s' : TestResultsStore) (j : Job) (js : List Job) (b : Batch)
    (events : List AloneEvent) (r : Option TaskError)
    (hj : j ∈ desiredJobs rc w durations s.results limit) (hb : ClaimedFrom rc js b) (hjs : j ∈ js)
    (hrun : run (claimedStep b) (s, .start) events = some (s', .returned r)) :
    (NotReemitted rc s' j.key ↔
      b.Marks j.key ∨ s.lookup j.key.commit j.key.resultKey = some .unknown) ∧
    ((∀ j' ∈ js, NulFree j'.key) →
      (b.Marks j.key ↔ (rc.ktest.repoPathUrl j.key.repo).getD [] ≠ [])) := by
  refine ⟨?_, fun hnul => hb.marks_iff hnul hjs⟩
  by_cases hmarks : b.Marks j.key
  · refine iff_of_true ?_ (.inl hmarks)
    obtain ⟨hurl, hcommit, hkey⟩ := hmarks
    have hend := run_invariant_all (fun _ _ _ hx hstep => Marked.step hx hurl hstep)
      (show Marked b (s, .start) from trivial) hrun
    have hsome : (s'.lookup b.commit j.key.resultKey).isSome = true := hend _ hkey
    rw [hcommit] at hsome
    intro w' durations' limit' j' hj' heq
    have hlookup := lookup_of_emitted hj'
    rw [heq] at hlookup
    rcases hlookup with hnone | hunknown
    · simp [hnone] at hsome
    · exact hunknown
  · obtain ⟨cj, hcj, hpayload⟩ := hb.exists_job hjs
    have hcommit : cj.payload.commit = j.key.commit := congrArg JobParams.commit hpayload
    have hkey : cj.payload.resultKey = j.key.resultKey := congrArg JobParams.resultKey hpayload
    have hmiss : b.params.repoUrl ≠ [] → b.commit = cj.payload.commit → cj.payload.resultKey ∉ b.keys := by
      intro hurl hc hk
      exact hmarks ⟨hurl, hc.trans hcommit, hkey ▸ hk⟩
    have hstatus : s.lookup j.key.commit j.key.resultKey ≠ some .inprogress := by
      rcases lookup_of_emitted hj with h | h <;> simp [h]
    have hstart : Untouched b cj.payload.commit cj.payload.resultKey
        (s.lookup j.key.commit j.key.resultKey) (s, .start) :=
      ⟨by rw [hcommit, hkey], fun _ => trivial⟩
    have hend := run_invariant_all (fun _ _ _ hx hstep => Untouched.step hx hcj hmiss hstatus hstep)
      hstart hrun
    have hlookup : s'.lookup j.key.commit j.key.resultKey = s.lookup j.key.commit j.key.resultKey := by
      rw [← hend.lookup, hcommit, hkey]
    rcases lookup_of_emitted hj with hnone | hunknown
    · refine iff_of_false (not_notReemitted hj (hlookup.trans hnone)) ?_
      simp [hmarks, hnone]
    · exact iff_of_true (fun _ _ _ _ _ _ => hlookup.trans hunknown) (.inr hunknown)

theorem claimedFrom_bootJob (rc : CiConfig) :
    ClaimedFrom rc [bootJob] ⟨⟨0, (makeJobSpec rc bootJob).params⟩, []⟩ where
  payloads := rfl
  batchKey := by
    intro j hj j' hj'
    rw [List.mem_singleton.mp hj, List.mem_singleton.mp hj']

def failedCheckout : List AloneEvent :=
  [.own (.start 5), .own (.mark (.written 5)), .own (.update ⟨"1.0".toList, .written⟩),
    .own (.command (.exited (some 128))), .own (.teardown 12), .own .lookup,
    .own (.failWrite (.written 13)), .own (.update ⟨"1.1".toList, .written⟩)]

theorem notReemitted_served : ∃ s' r, run
    (claimedStep ⟨⟨0, (makeJobSpec servedConfig bootJob).params⟩, []⟩) (⟨⟨∅, ∅⟩, ∅⟩, .start)
      failedCheckout = some (s', .returned r) ∧ NotReemitted servedConfig s' bootKey := by
  obtain ⟨s', r, hrun⟩ : ∃ s' r, run
      (claimedStep ⟨⟨0, (makeJobSpec servedConfig bootJob).params⟩, []⟩) (⟨⟨∅, ∅⟩, ∅⟩, .start)
        failedCheckout = some (s', .returned r) := ⟨_, _, rfl⟩
  refine ⟨s', r, hrun, ?_⟩
  refine (notReemitted_iff servedConfig bootWorld none 2000 _ s' bootJob [bootJob] _ _ r ?_
    (claimedFrom_bootJob servedConfig) (by simp) hrun).1.mpr (.inl ?_)
  · decide +kernel
  · exact ⟨by decide +kernel, rfl, by decide +kernel⟩

/-- Without an entry for the repository the batch returns a fatal error, and the job is
emitted again. -/
theorem bootJob_reemitted : bootJob ∈ desiredJobs bootConfig bootWorld none (fun _ => ∅) 2000 ∧
    ∃ s', run (claimedStep ⟨⟨0, (makeJobSpec bootConfig bootJob).params⟩, []⟩)
        (⟨⟨∅, ∅⟩, ∅⟩, .start) [.own (.start 5), .own (.teardown 6), .own .lookup,
          .own (.update ⟨"1.0".toList, .written⟩)] =
      some (s', .returned (some (.fatal "repo linux not configured".toList))) ∧
    s'.lookup "c0ffee".toList "boot.boot".toList = none ∧
    bootJob ∈ desiredJobs bootConfig bootWorld none s'.results 2000 := by
  refine ⟨by decide +kernel, _, rfl, by decide +kernel, by decide +kernel⟩

end BatchRun
end KtestCi
