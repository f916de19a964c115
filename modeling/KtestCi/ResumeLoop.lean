import KtestCi.BatchTrace

/-!
# The resume loop ends

Every supervisor run of a batch is given what the runs before it have left. A run that
settles nothing is repeated once, after a clean; any other run leaves less. So the number of
runs is bounded, and with it the number of steps.
-/

namespace KtestCi
namespace BatchRun

open EventRuns

variable (b : Batch)

def iterationCost : ℕ := b.jobs.length + 5

def exitCost : ℕ := 2 * b.jobs.length + 3

def loopCost (remaining : ℕ) (didClean : Bool) : ℕ :=
  exitCost b + (remaining + spareRuns didClean) * iterationCost b

/-- An upper bound for the steps a batch still makes. -/
def stepsLeft : Stage → ℕ
  | .start => loopCost b b.jobs.length false + 6 + b.jobs.length
  | .marking todo _ _ => loopCost b b.jobs.length false + 5 + todo.length
  | .checkout _ => loopCost b b.jobs.length false + 4
  | .syncKtest _ => loopCost b b.jobs.length false + 3
  | .buildSupervisor _ => loopCost b b.jobs.length false + 2
  | .prepare _ => loopCost b b.jobs.length false + 1
  | .supervise remaining didClean _ => loopCost b remaining.length didClean
  | .pulling remaining didClean _ => loopCost b (remaining.length - 1) didClean + b.jobs.length + 4
  | .collecting todo remaining _ _ didClean _ =>
    loopCost b (remaining.length - 1) didClean + todo.length + 2
  | .cleaning remaining _ => loopCost b remaining.length true + 1
  | .teardown _ => 2 * b.jobs.length + 2
  | .failWrite _ todo _ _ _ => 2 * todo.length + 2
  | .failing todo _ _ _ => 2 * todo.length + 1
  | .returned _ => 0

variable {b}

theorem loopCost_succ (remaining : ℕ) (didClean : Bool) :
    loopCost b (remaining + 1) didClean = loopCost b remaining didClean + b.jobs.length + 5 := by
  rw [loopCost, loopCost, Nat.add_right_comm remaining 1, Nat.succ_mul, iterationCost]
  omega

theorem loopCost_false (remaining : ℕ) :
    loopCost b remaining false = loopCost b (remaining + 1) true := rfl

theorem loopCost_mono {m n : ℕ} (h : m ≤ n) (didClean : Bool) :
    loopCost b m didClean ≤ loopCost b n didClean := by
  have hmul := Nat.mul_le_mul_right (iterationCost b) (Nat.add_le_add_right h (spareRuns didClean))
  simp only [loopCost]
  omega

theorem exitCost_le (remaining : ℕ) (didClean : Bool) :
    2 * b.jobs.length + 3 ≤ loopCost b remaining didClean := Nat.le_add_right _ _

theorem stepsLeft_resume_le (remaining : List Text) (didClean : Bool) (now : ℤ) :
    stepsLeft b (resume remaining didClean now) ≤ loopCost b remaining.length didClean := by
  have hexit := exitCost_le (b := b) remaining.length didClean
  unfold resume
  split_ifs
  · simp only [stepsLeft]
    omega
  · exact Nat.le_refl _

theorem Looping.length_le {runs : List VmRun} {remaining : List Text} {spare : ℕ}
    (h : Looping b runs remaining spare) : remaining.length ≤ b.jobs.length := by
  have hle : remaining.length ≤ b.subtests.length := by
    rw [h.left]
    exact List.length_filter_le _ _
  simpa [Batch.subtests] using hle

theorem Looping.loopCost_eq {runs : List VmRun} {remaining : List Text} {spare : ℕ}
    (h : Looping b runs remaining spare) (didClean : Bool) :
    loopCost b remaining.length didClean =
      loopCost b (remaining.length - 1) didClean + b.jobs.length + 5 := by
  have hpos := List.length_pos_iff.mpr h.ne_nil
  rw [← loopCost_succ, Nat.sub_add_cancel hpos]

theorem stepsLeft_recorded {rs : List VmRun} {remaining next : List Text} {verdicts : TestResultsMap}
    {didClean : Bool} {now : ℤ} {pulled : List (Text × Option TestResult)}
    (hlooping : Looping b rs remaining (spareRuns didClean))
    (hread : Reading b [] remaining next verdicts now pulled) :
    stepsLeft b (afterVerdicts remaining next didClean now) + 1 ≤
      stepsLeft b (.collecting [] remaining next verdicts didClean now) := by
  have hpos := List.length_pos_iff.mpr hlooping.ne_nil
  have hexit := exitCost_le (b := b) (remaining.length - 1) didClean
  have hle := hread.sublist.length_le
  unfold afterVerdicts
  split_ifs with hlen hclean
  · simp only [stepsLeft]
    omega
  · obtain rfl : didClean = false := by simpa using hclean
    have hspare := loopCost_false (b := b) (remaining.length - 1)
    rw [Nat.sub_add_cancel hpos] at hspare
    simp only [stepsLeft]
    omega
  · have hresume := stepsLeft_resume_le (b := b) next didClean now
    have hmono := loopCost_mono (b := b) (show next.length ≤ remaining.length - 1 by omega) didClean
    calc stepsLeft b (resume next didClean now) + 1
        ≤ loopCost b (remaining.length - 1) didClean + 1 := by omega
      _ ≤ loopCost b (remaining.length - 1) didClean + 0 + 2 := by omega

/-- Every step of the batch uses up one of the steps it has left. -/
theorem stepsLeft_moves {s s' : TestResultsStore} {st st' : Stage} {e : Event} {runs : List VmRun}
    (hloop : InLoop b runs st) (hm : Moves b s st e s' st') : stepsLeft b st' + 1 ≤ stepsLeft b st := by
  have hexit := exitCost_le (b := b) b.jobs.length false
  cases hm with
  | fatal now e h =>
    simp only [stepsLeft]
    omega
  | start now h =>
    simp only [stepsLeft, Batch.subtests, List.length_map]
    omega
  | mark st todo now marks w =>
    simp only [stepsLeft, List.length_cons]
    omega
  | marked now marks io => simp [stepsLeft]
  | setup outcome hsetup hok => cases hsetup <;> simp [stepsLeft, Batch.subtests]
  | setupFailed outcome e hsetup hfail =>
    cases hsetup <;>
    · simp only [stepsLeft]
      omega
  | supervised remaining didClean now code =>
    simp only [stepsLeft, hloop.loopCost_eq]
    omega
  | superviseFailed remaining didClean now msg e =>
    have hexit' := exitCost_le (b := b) remaining.length didClean
    simp only [stepsLeft]
    omega
  | pulled remaining didClean now dirs =>
    obtain ⟨rs, -, hlooping⟩ := hloop
    have hle := hlooping.length_le
    simp only [stepsLeft]
    omega
  | pullFailed remaining didClean now dirs outcome e h =>
    have hexit' := exitCost_le (b := b) (remaining.length - 1) didClean
    simp only [stepsLeft]
    omega
  | read st todo remaining next verdicts didClean now =>
    simp only [stepsLeft, List.length_cons]
    omega
  | recorded remaining next verdicts didClean now io =>
    obtain ⟨pulled, rs, -, hlooping, hread⟩ := hloop
    exact stepsLeft_recorded hlooping hread
  | cleaned remaining now code =>
    exact Nat.add_le_add_right (stepsLeft_resume_le remaining true now) 1
  | cleanFailed remaining now msg e =>
    have hexit' := exitCost_le (b := b) remaining.length true
    simp only [stepsLeft]
    omega
  | succeed now => simp [stepsLeft]
  | fail now e => simp [stepsLeft]
  | lookupInprogress j todo updates now e h =>
    simp only [stepsLeft, List.length_cons]
    omega
  | lookupOther j todo updates now e h =>
    simp only [stepsLeft, List.length_cons]
    omega
  | failWrite j todo updates now e w => simp [stepsLeft]
  | failed updates now e io => simp [stepsLeft]

theorem exists_step (b : Batch) (s : TestResultsStore) (stage : Stage) :
    (∃ result, stage = .returned result) ∨ ∃ e y, step b s stage e = some y := by
  cases stage with
  | start =>
    by_cases h : b.params.repoUrl.isEmpty = true
    · exact .inr ⟨.start 0, _, if_pos h⟩
    · exact .inr ⟨.start 0, _, if_neg h⟩
  | marking todo now marks =>
    cases todo with
    | nil => exact .inr ⟨.update ⟨[], .written⟩, _, rfl⟩
    | cons st todo => exact .inr ⟨.mark (.written 0), _, rfl⟩
  | checkout | syncKtest | buildSupervisor | prepare | supervise | cleaning =>
    exact .inr ⟨.command (.exited none), _, rfl⟩
  | pulling => exact .inr ⟨.pull (fun _ => none) (.notRun []), _, rfl⟩
  | collecting todo remaining next verdicts didClean now =>
    cases todo with
    | nil => exact .inr ⟨.update ⟨[], .written⟩, _, rfl⟩
    | cons st todo => exact .inr ⟨.read, _, rfl⟩
  | teardown result => cases result <;> exact .inr ⟨.teardown 0, _, rfl⟩
  | failing todo updates now e =>
    cases todo with
    | nil => exact .inr ⟨.update ⟨[], .written⟩, _, rfl⟩
    | cons j todo =>
      by_cases h : s.lookup b.commit j.payload.resultKey = some .inprogress
      · exact .inr ⟨.lookup, _, if_pos h⟩
      · exact .inr ⟨.lookup, _, if_neg h⟩
  | failWrite => exact .inr ⟨.failWrite (.written 0), _, rfl⟩
  | returned result => exact .inl ⟨result, rfl⟩

def AloneEvent.isOwn : AloneEvent → Bool
  | .own _ => true
  | .other _ => false

theorem own_steps_le {s : TestResultsStore} {es : List AloneEvent} {x : Traced}
    (hkeys : b.keys.Nodup) (hrun : run (tracedStep b) (.start s) es = some x) :
    es.countP AloneEvent.isOwn ≤ stepsLeft b .start := by
  have hbound : es.countP AloneEvent.isOwn + stepsLeft b x.stage ≤ stepsLeft b (Traced.start s).stage := by
    refine run_countP_add_le (m := fun x => stepsLeft b x.stage) (fun _ _ _ h hstep => h.step hkeys hstep)
      (fun y e y' h hstep => ?_) (chronicle_start b s) hrun
    obtain ⟨e', rfl, hm, -, -⟩ | ⟨s', rfl, -, rfl⟩ := tracedStep_cases hstep
    · exact stepsLeft_moves h.loop hm
    · simp [AloneEvent.isOwn]
  exact (Nat.le_add_right _ _).trans hbound

/-- What the resume loop guarantees of a batch, in any state. -/
structure Resumes (b : Batch) (es : List AloneEvent) (x : Traced) : Prop where
  steps : es.countP AloneEvent.isOwn ≤ stepsLeft b .start
  next : (∃ result, x.stage = .returned result) ∨ ∃ e x', tracedStep b x (.own e) = some x'
  runs : x.runs.length ≤ b.jobs.length + 1
  passed : ∀ r earlier, (r :: earlier) <:+ x.runs → r.passed = b.subtests.filter (pending earlier)
  pulled : ∀ r ∈ x.runs.tail, r.pulled.map Prod.fst = r.passed
  not_again : ∀ r earlier, (r :: earlier) <:+ x.runs → ∀ r' ∈ earlier, ∀ st res,
    (st, some res) ∈ r'.pulled → res.status ≠ .inprogress → st ∉ r.passed
  kept : ∀ r ∈ recordedRuns x.stage x.runs, ∀ st res, (st, some res) ∈ r.pulled →
    res.status ≠ .inprogress → x.store.lookup b.commit (b.key st) = some res.status
  ok : x.stage = .returned none → ∀ st ∈ b.subtests, ∃ status,
    x.store.lookup b.commit (b.key st) = some status ∧ status ≠ .inprogress

/-- The loop ends after at most one run more than there are subtests, no subtest with a
status is run again or loses it, and success means that all of them have one. -/
theorem resume_loop (b : Batch) (hkeys : b.keys.Nodup) (s : TestResultsStore)
    (es : List AloneEvent) (x : Traced) (hrun : run (tracedStep b) (.start s) es = some x) :
    Resumes b es x := by
  have h := Chronicle.run hkeys hrun
  have hkept : ∀ r ∈ recordedRuns x.stage x.runs, ∀ st res, (st, some res) ∈ r.pulled →
      res.status ≠ .inprogress → x.store.lookup b.commit (b.key st) = some res.status := by
    intro r hr st res hmem hstatus
    rw [TestResultsStore.lookup_eq_results, (h.stands r hr st res hmem hstatus).1]
    rfl
  refine ⟨own_steps_le hkeys hrun, ?_, h.count, h.order.passed, h.order.complete, ?_, hkept, ?_⟩
  · rcases exists_step b x.store x.stage with hreturned | ⟨e, y, hstep⟩
    · exact .inl hreturned
    · exact .inr ⟨e, _, by rw [tracedStep, hstep]; rfl⟩
  · exact fun r earlier hsuffix r' hr' st res hmem hstatus =>
      h.order.not_again hsuffix hr' ⟨res, hmem, hstatus⟩
  · intro hstage st hst
    have hleft : left b x.runs = [] := by
      have hloop := h.loop
      rwa [hstage] at hloop
    have hnot : pending x.runs st = false := by
      simpa using List.filter_eq_nil_iff.mp hleft st hst
    obtain ⟨r, hr, res, hmem, hstatus⟩ := exists_settles_of_not_pending hnot
    exact ⟨res.status, hkept r (by rwa [hstage]) st res hmem hstatus, hstatus⟩

theorem resume_loop_pair : ∃ x, run (tracedStep (pairBatch "git://host/linux".toList))
    (.start ⟨⟨∅, ∅⟩, ∅⟩) pairEvents = some x ∧
      Resumes (pairBatch "git://host/linux".toList) pairEvents x := by
  obtain ⟨x, hrun⟩ : ∃ x, run (tracedStep (pairBatch "git://host/linux".toList))
      (.start ⟨⟨∅, ∅⟩, ∅⟩) pairEvents = some x := ⟨_, rfl⟩
  exact ⟨x, hrun, resume_loop _ (by decide +kernel) _ _ x hrun⟩

end BatchRun
end KtestCi
