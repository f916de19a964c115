import KtestCi.BatchAlone
import KtestCi.ResultsStoreRestart

/-!
# Status files and the store after a batch

When a batch returns without an error, the status files of its results say what the store
says. The error path does not achieve this: it records that a subtest failed to run, but
the text it writes to the status file is read back as a failed test.
-/

namespace KtestCi
namespace BatchRun

open EventRuns

variable (b : Batch)

def diskStatus (s : TestResultsStore) (k : Text) : Option TestStatus :=
  (diskResult b s k).map TestResult.status

def Agree (s : TestResultsStore) (k : Text) : Prop := diskStatus b s k = s.lookup b.commit k

/-- The subtests that remain are in progress, the others are settled on disk as in memory. -/
structure Split (s : TestResultsStore) (remaining : List Text) : Prop where
  owed : ∀ k ∈ remaining.map b.key, s.lookup b.commit k = some .inprogress
  settled : ∀ k ∈ b.keys, k ∉ remaining.map b.key → Agree b s k

structure Collected (s : TestResultsStore) (todo remaining next : List Text)
    (verdicts : TestResultsMap) (now : ℤ) : Prop where
  next : ∃ done, remaining = done ++ todo ∧
    next = done.filter (fun st => (pulledResult b s st now).status = .inprogress)
  verdicts : ∀ st ∈ remaining, b.key st ∈ verdicts →
    verdicts[b.key st]? = some (pulledResult b s st now)

/-- A key that the error path is about to get wrong, or already has on disk. -/
def Misread (s : TestResultsStore) (todo : List ClaimedJob) (updates : TestResultsMap) (k : Text) :
    Prop :=
  k ∈ b.keys ∧ s.lookup b.commit k = some .inprogress ∧
    (k ∈ todo.map (fun j => j.payload.resultKey) ∨
      (updates[k]?.map TestResult.status = some .failedToRun ∧ diskStatus b s k = some .failed))

/-- What is known of disk and memory while the batch runs. -/
def Live (s : TestResultsStore) : Stage → Prop
  | .start | .marking _ _ _ => True
  | .checkout _ | .syncKtest _ | .buildSupervisor _ | .prepare _ => Split b s b.subtests
  | .supervise remaining _ _ | .pulling remaining _ _ | .cleaning remaining _ => Split b s remaining
  | .collecting todo remaining next verdicts _ now =>
    Split b s remaining ∧ Collected b s todo remaining next verdicts now
  | .teardown none | .returned none => Split b s []
  | .teardown (some _) => b.params.repoUrl = [] ∨
      ∃ k ∈ b.keys, s.lookup b.commit k = some .inprogress
  | .failing todo updates _ _ => b.params.repoUrl = [] ∨ ∃ k, Misread b s todo updates k
  | .failWrite job todo updates _ _ => b.params.repoUrl = [] ∨
      ∃ k, Misread b s (job :: todo) updates k
  | .returned (some _) => b.params.repoUrl = [] ∨ ∃ k ∈ b.keys,
      s.lookup b.commit k = some .failedToRun ∧ diskStatus b s k = some .failed

variable {b}

theorem split_all {s : TestResultsStore} (h : ∀ k ∈ b.keys, s.lookup b.commit k = some .inprogress) :
    Split b s b.subtests :=
  ⟨h, fun _ hk hnot => absurd hk hnot⟩

theorem Live.unaffected {s s' : TestResultsStore} {st : Stage} (h : Live b s st) (hvalid : Valid b st)
    (hs : Unaffected b s s') : Live b s' st := by
  have hstatus {k : Text} (hk : k ∈ b.keys) : diskStatus b s' k = diskStatus b s k := by
    rw [diskStatus, diskStatus, (hs k hk).2]
  have hkeys {remaining : List Text} (hr : remaining ⊆ b.subtests) {k : Text}
      (hk : k ∈ remaining.map b.key) : k ∈ b.keys := by
    obtain ⟨st, hst, rfl⟩ := List.mem_map.mp hk
    exact key_mem_keys (hr hst)
  have hsplit {remaining : List Text} (hr : remaining ⊆ b.subtests) (h : Split b s remaining) :
      Split b s' remaining := by
    refine ⟨fun k hk => (hs.lookup (hkeys hr hk)).trans (h.owed k hk), fun k hk hnot => ?_⟩
    rw [Agree, hstatus hk, hs.lookup hk]
    exact h.settled k hk hnot
  have hmisread {todo : List ClaimedJob} {updates : TestResultsMap} {k : Text}
      (h : Misread b s todo updates k) : Misread b s' todo updates k := by
    obtain ⟨hk, hlookup, hrest⟩ := h
    exact ⟨hk, (hs.lookup hk).trans hlookup, by rwa [hstatus hk]⟩
  cases st with
  | start | marking => trivial
  | checkout | syncKtest | buildSupervisor | prepare => exact hsplit (fun _ h => h) h
  | supervise | pulling | cleaning => exact hsplit hvalid.2 h
  | collecting todo remaining next verdicts didClean now =>
    have hpulled {st : Text} (hst : st ∈ remaining) :
        pulledResult b s' st now = pulledResult b s st now := by
      have := (hs _ (key_mem_keys (hvalid.1.2 hst))).2
      unfold diskResult at this
      rw [pulledResult, pulledResult, this]
    obtain ⟨hs', ⟨done, hdone, hnext⟩, hverdicts⟩ := h
    refine ⟨hsplit hvalid.1.2 hs', ⟨done, hdone, ?_⟩, ?_⟩
    · rw [hnext]
      apply List.filter_congr
      intro st hst
      rw [hpulled (hdone ▸ List.mem_append_left _ hst)]
    · intro st hst hmem
      rw [hpulled hst]
      exact hverdicts st hst hmem
  | teardown result =>
    cases result with
    | none => exact hsplit (by simp) h
    | some e =>
      exact h.imp_right (fun ⟨k, hk, hlookup⟩ => ⟨k, hk, (hs.lookup hk).trans hlookup⟩)
  | failing => exact h.imp_right (fun ⟨k, hk⟩ => ⟨k, hmisread hk⟩)
  | failWrite => exact h.imp_right (fun ⟨k, hk⟩ => ⟨k, hmisread hk⟩)
  | returned result =>
    cases result with
    | none => exact hsplit (by simp) h
    | some e =>
      refine h.imp_right (fun ⟨k, hk, hlookup, hdisk⟩ => ⟨k, hk, (hs.lookup hk).trans hlookup, ?_⟩)
      rw [hstatus hk]
      exact hdisk

def Event.WritesStatus : Event → Prop
  | .mark (.failed _) | .failWrite (.failed _) => False
  | _ => True

theorem diskResult_congr {s s' : TestResultsStore} (h : s'.outputDir.commits = s.outputDir.commits)
    (k : Text) : diskResult b s' k = diskResult b s k := by
  unfold diskResult OutputDir.resultDir
  rw [h]

theorem diskStatus_update (s : TestResultsStore) (io : CapnpWrite) (c : Text)
    (updates : TestResultsMap) (k : Text) :
    diskStatus b (s.update io c updates) k = diskStatus b s k := by
  rw [diskStatus, diskStatus, diskResult_congr (TestResultsStore.commits_update _ _ _ _)]

theorem resultDir_pullDirs (o : OutputDir) (c : Text) (dirs : Text → Option ResultDir)
    {keys : List Text} {k : Text} (hk : k ∉ keys) :
    (pullDirs o c dirs keys).resultDir c k = o.resultDir c k := by
  induction keys generalizing o with
  | nil => rfl
  | cons key keys ih =>
    obtain ⟨hne, hk⟩ := not_or.mp (mt List.mem_cons.mpr hk)
    rw [pullDirs, ih _ hk]
    split
    · rfl
    · rw [OutputDir.resultDir_setResultDir, if_neg (fun h => hne h.2.symm)]

theorem status_readTestResult_insert (dir : ResultDir) (text : Text) (mtime : ℤ) :
    (readTestResult (dir.insert "status".toList ⟨some text, mtime⟩)).map TestResult.status =
      some (TestStatus.fromStr text) := by
  unfold readTestResult
  rw [TextMap.getElem?_insert, if_pos rfl]
  rfl

theorem diskStatus_writeStatus (s : TestResultsStore) (key text : Text) (mtime : ℤ) (k : Text) :
    diskStatus b { s with outputDir := writeStatus s.outputDir b.commit key text (.written mtime) } k =
      if key = k then some (TestStatus.fromStr text) else diskStatus b s k := by
  unfold diskStatus diskResult writeStatus
  simp only [OutputDir.resultDir_setResultDir, true_and]
  split_ifs
  · exact status_readTestResult_insert _ text mtime
  · rfl

/-- The text of the error path does not say what it is meant to say. -/
theorem fromStr_failed_to_run : TestStatus.fromStr "FAILED TO RUN\n".toList = .failed := by
  decide

theorem exists_inprogress {s : TestResultsStore} {remaining : List Text} (hne : remaining ≠ [])
    (hsub : remaining ⊆ b.subtests) (h : Split b s remaining) :
    ∃ k ∈ b.keys, s.lookup b.commit k = some .inprogress := by
  obtain ⟨st, hst⟩ := List.exists_mem_of_ne_nil remaining hne
  exact ⟨b.key st, key_mem_keys (hsub hst), h.owed _ (List.mem_map.mpr ⟨st, hst, rfl⟩)⟩

theorem Collected.read {s : TestResultsStore} {st : Text} {todo remaining next : List Text}
    {verdicts : TestResultsMap} {now : ℤ} (h : Collected b s (st :: todo) remaining next verdicts now) :
    Collected b s todo remaining
      (if (pulledResult b s st now).status = .inprogress then next ++ [st] else next)
      (verdicts.insert (b.key st) (pulledResult b s st now)) now := by
  obtain ⟨⟨done, hdone, hnext⟩, hverdicts⟩ := h
  refine ⟨⟨done ++ [st], by simp [hdone], ?_⟩, ?_⟩
  · rw [List.filter_append, ← hnext]
    by_cases hst : (pulledResult b s st now).status = .inprogress <;> simp [hst]
  · intro st' hst' hmem
    rw [TextMap.getElem?_insert]
    split_ifs with hkey
    · simp only [pulledResult, hkey]
    · rw [Std.ExtTreeMap.mem_insert] at hmem
      rcases hmem with hmem | hmem
      · exact absurd (Std.LawfulEqCmp.eq_of_compare hmem) hkey
      · exact hverdicts st' hst' hmem

theorem split_recorded {s : TestResultsStore} {remaining next : List Text} {verdicts : TestResultsMap}
    {didClean : Bool} {now : ℤ} (io : CapnpWrite)
    (hvalid : Valid b (.collecting [] remaining next verdicts didClean now))
    (hsplit : Split b s remaining) (h : Collected b s [] remaining next verdicts now) :
    next = remaining.filter (fun st => (pulledResult b s st now).status = .inprogress) ∧
      Split b (s.update io b.commit verdicts) next := by
  obtain ⟨⟨done, hdone, hnext⟩, hverdicts⟩ := h
  obtain ⟨-, -, -, hall, hdomain⟩ := hvalid
  obtain rfl : remaining = done := by simpa using hdone
  have hverdict {st : Text} (hst : st ∈ remaining) :
      verdicts[b.key st]? = some (pulledResult b s st now) := by
    rcases hall st hst with hmem | hmem
    · simp at hmem
    · exact hverdicts st hst hmem
  refine ⟨hnext, ?_, ?_⟩
  · intro k hk
    obtain ⟨st, hst, rfl⟩ := List.mem_map.mp hk
    rw [hnext, List.mem_filter] at hst
    rw [TestResultsStore.lookup_update_of_some (hverdict hst.1)]
    simpa using hst.2
  · intro k hk hnot
    rw [Agree, diskStatus_update]
    by_cases hrem : k ∈ remaining.map b.key
    · obtain ⟨st, hst, rfl⟩ := List.mem_map.mp hrem
      rw [TestResultsStore.lookup_update_of_some (hverdict hst)]
      have hstatus : (pulledResult b s st now).status ≠ .inprogress := by
        intro hin
        apply hnot
        rw [hnext]
        exact List.mem_map.mpr ⟨st, List.mem_filter.mpr ⟨hst, by simpa using hin⟩, rfl⟩
      unfold pulledResult at hstatus ⊢
      unfold diskStatus diskResult
      cases hr : (s.outputDir.resultDir b.commit (b.key st)).bind readTestResult with
      | none => simp [hr] at hstatus
      | some r => simp
    · have hmem : k ∉ verdicts := by
        intro hmem
        obtain ⟨r, hr⟩ := TextMap.mem_iff_exists.mp hmem
        exact hrem (hdomain k r hr).1
      rw [TestResultsStore.lookup_update_of_ne (fun h => hmem h.2)]
      exact hsplit.settled k hk hrem

theorem live_resume {s : TestResultsStore} {remaining : List Text} {didClean : Bool} {now : ℤ}
    (h : Split b s remaining) : Live b s (resume remaining didClean now) := by
  unfold resume
  split_ifs with hempty
  · rwa [List.isEmpty_iff.mp hempty] at h
  · exact h

theorem Live.recorded {s : TestResultsStore} {remaining next : List Text} {verdicts : TestResultsMap}
    {didClean : Bool} {now : ℤ} (io : CapnpWrite)
    (hvalid : Valid b (.collecting [] remaining next verdicts didClean now))
    (h : Live b s (.collecting [] remaining next verdicts didClean now)) :
    Live b (s.update io b.commit verdicts) (afterVerdicts remaining next didClean now) := by
  obtain ⟨hnext, hsplit⟩ := split_recorded io hvalid h.1 h.2
  unfold afterVerdicts
  split_ifs with hlen
  · have hne : next ≠ [] := by
      intro hnil
      rw [hnil, List.length_nil] at hlen
      exact hvalid.1.1 (List.eq_nil_of_length_eq_zero hlen.symm)
    exact .inr (exists_inprogress hne (fun st hst => hvalid.1.2 (hvalid.2.2.1 hst)) hsplit)
  · have hall : next = remaining := by
      rw [hnext] at hlen ⊢
      exact List.filter_sublist.eq_of_length hlen
    exact hall ▸ hsplit
  · exact live_resume hsplit

theorem Misread.failWrite {s : TestResultsStore} {j : ClaimedJob} {todo : List ClaimedJob}
    {updates : TestResultsMap} {now mtime : ℤ} {k : Text} (h : Misread b s (j :: todo) updates k) :
    let o := writeStatus s.outputDir b.commit j.payload.resultKey "FAILED TO RUN\n".toList
      (.written mtime)
    Misread b { s with outputDir := o } todo
      (updates.insert j.payload.resultKey ⟨.failedToRun, now, 0⟩) k := by
  obtain ⟨hk, hlookup, hrest⟩ := h
  intro o
  refine ⟨hk, hlookup, ?_⟩
  rw [diskStatus_writeStatus, fromStr_failed_to_run, TextMap.getElem?_insert]
  by_cases hj : j.payload.resultKey = k
  · simp [hj]
  · simpa [hj, Ne.symm hj] using hrest

theorem Live.moves {s s' : TestResultsStore} {st st' : Stage} {e : Event} (h : Live b s st)
    (hvalid : Valid b st) (hb : b.Homogeneous) (hw : e.WritesStatus) (hm : Moves b s st e s' st') :
    Live b s' st' := by
  cases hm with
  | fatal now e hurl => exact .inl hurl
  | start | mark => trivial
  | marked now marks io =>
    apply split_all
    intro k hk
    obtain ⟨r, hr, hstatus⟩ := hvalid.exists_mark hk
    rw [TestResultsStore.lookup_update_of_some hr, hstatus]
  | setup outcome hsetup hok => cases hsetup <;> exact h
  | setupFailed outcome e hsetup hfail =>
    cases hsetup <;> exact .inr (exists_inprogress (subtests_ne_nil b) (fun _ h => h) h)
  | supervised | succeed => exact h
  | superviseFailed | cleanFailed => exact .inr (exists_inprogress hvalid.1 hvalid.2 h)
  | pulled remaining didClean now dirs =>
    refine ⟨⟨h.owed, fun k hk hnot => ?_⟩, ⟨[], rfl, rfl⟩, by simp⟩
    rw [Agree, diskStatus, diskResult, resultDir_pullDirs _ _ _ hnot]
    exact h.settled k hk hnot
  | pullFailed remaining didClean now dirs outcome e hne =>
    obtain ⟨k, hk, hlookup⟩ := exists_inprogress hvalid.1 hvalid.2 h
    exact .inr ⟨k, hk, hlookup⟩
  | read st todo remaining next verdicts didClean now => exact ⟨h.1, h.2.read⟩
  | recorded remaining next verdicts didClean now io => exact h.recorded io hvalid
  | cleaned remaining now code => exact live_resume h
  | fail now e =>
    refine h.imp_right (fun ⟨k, hk, hlookup⟩ => ⟨k, hk, hlookup, .inl ?_⟩)
    obtain ⟨j, hj, rfl⟩ := Batch.mem_keys_iff.mp hk
    exact List.mem_map.mpr ⟨j, hj, hb.resultKey hj⟩
  | lookupInprogress j todo updates now e hlookup => exact h
  | lookupOther j todo updates now e hother =>
    refine h.imp_right (fun ⟨k, hk, hlookup, hrest⟩ => ⟨k, hk, hlookup, ?_⟩)
    have hne : k ≠ j.payload.resultKey := by
      rintro rfl
      exact hother hlookup
    simpa [hne] using hrest
  | failWrite j todo updates now e w =>
    cases w with
    | failed remains => exact absurd hw (fun h => h)
    | written mtime => exact h.imp_right (fun ⟨k, hk⟩ => ⟨k, Misread.failWrite hk⟩)
  | failed updates now e io =>
    refine h.imp_right (fun ⟨k, hk, hlookup, hrest⟩ => ?_)
    rcases hrest with hrest | ⟨hupdate, hdisk⟩
    · simp at hrest
    · obtain ⟨r, hr, hstatus⟩ := Option.map_eq_some_iff.mp hupdate
      refine ⟨k, hk, ?_, ?_⟩
      · rw [TestResultsStore.lookup_update_of_some hr, hstatus]
      · rw [diskStatus_update]
        exact hdisk

/-- The exits of the inner function with an error after the subtests are marked. -/
def ErrorExit : Stage → Event → Prop
  | .checkout _, .command outcome | .syncKtest _, .command outcome
  | .buildSupervisor _, .command outcome | .prepare _, .command outcome => outcome ≠ .exited (some 0)
  | .supervise _ _ _, .command outcome | .cleaning _ _, .command outcome =>
    ∃ msg, outcome = .notRun msg
  | .pulling _ _ _, .pull _ outcome => outcome ≠ .exited (some 0)
  | .collecting [] remaining next _ didClean _, .update _ =>
    next.length = remaining.length ∧ didClean = true
  | _, _ => False

def ErrorFree (b : Batch) : TestResultsStore × Stage → List AloneEvent → Prop
  | _, [] => True
  | x, e :: es => (∀ e', e = .own e' → ¬ ErrorExit x.2 e') ∧
      ∀ x', aloneStep b x e = some x' → ErrorFree b x' es

def Failed : Stage → Prop
  | .teardown (some _) | .failing _ _ _ _ | .failWrite _ _ _ _ _ | .returned (some _) => True
  | _ => False

theorem runStep_eq_none_iff {desc : Text} {outcome : CommandOutcome} :
    runStep desc outcome = none ↔ outcome = .exited (some 0) := by
  cases outcome with
  | notRun error => simp [runStep]
  | exited code => by_cases hcode : code = some 0 <;> simp [runStep, hcode]

theorem failed_resume (remaining : List Text) (didClean : Bool) (now : ℤ) :
    ¬ Failed (resume remaining didClean now) := by
  unfold resume
  split_ifs <;> exact fun h => h

theorem Moves.failed_iff {s s' : TestResultsStore} {st st' : Stage} {e : Event}
    (hm : Moves b s st e s' st') (hurl : b.params.repoUrl ≠ []) :
    Failed st' ↔ Failed st ∨ ErrorExit st e := by
  cases hm with
  | fatal now e h => exact absurd h hurl
  | start | mark | marked | supervised | pulled | read | succeed => simp [Failed, ErrorExit]
  | setup outcome hsetup hok =>
    rw [runStep_eq_none_iff] at hok
    cases hsetup <;> simp [Failed, ErrorExit, hok]
  | setupFailed outcome e hsetup hfail =>
    have hne : outcome ≠ .exited (some 0) := by
      intro heq
      rw [runStep_eq_none_iff.mpr heq] at hfail
      simp at hfail
    cases hsetup <;> simp [Failed, ErrorExit, hne]
  | superviseFailed | cleanFailed => simp [Failed, ErrorExit]
  | pullFailed remaining didClean now dirs outcome e hne => simp [Failed, ErrorExit, hne]
  | recorded remaining next verdicts didClean now io =>
    unfold afterVerdicts
    split_ifs with hlen hclean
    · simp [Failed, ErrorExit, hlen, hclean]
    · simp [Failed, ErrorExit, hclean]
    · exact iff_of_false (failed_resume next didClean now) (by simp [Failed, ErrorExit, hlen])
  | cleaned remaining now code =>
    exact iff_of_false (failed_resume remaining true now) (by simp [Failed, ErrorExit])
  | fail | lookupInprogress | lookupOther | failWrite | failed => simp [Failed]

theorem failed_run_iff {x x' : TestResultsStore × Stage} {events : List AloneEvent}
    (hurl : b.params.repoUrl ≠ []) (hrun : run (aloneStep b) x events = some x') :
    Failed x'.2 ↔ Failed x.2 ∨ ¬ ErrorFree b x events := by
  induction events generalizing x with
  | nil =>
    obtain rfl := Option.some.inj hrun
    simp [ErrorFree]
  | cons e events ih =>
    obtain ⟨x₁, hstep, hrun⟩ := run_cons_eq_some_iff.mp hrun
    have hrest : ErrorFree b x (e :: events) ↔
        (∀ e', e = .own e' → ¬ ErrorExit x.2 e') ∧ ErrorFree b x₁ events := by
      simp [ErrorFree, hstep]
    rw [ih hrun, hrest]
    obtain ⟨e', rfl, hm⟩ | ⟨s, rfl, -, rfl⟩ := aloneStep_cases hstep
    · rw [hm.failed_iff hurl]
      simp only [AloneEvent.own.injEq, forall_eq', not_and_or, not_not]
      exact or_assoc
    · simp

structure Running (b : Batch) (x : TestResultsStore × Stage) : Prop where
  live : Live b x.1 x.2
  valid : Valid b x.2

theorem Running.step {x x' : TestResultsStore × Stage} {e : AloneEvent} (h : Running b x)
    (hb : b.Homogeneous) (hw : ∀ e', e = .own e' → e'.WritesStatus)
    (hstep : aloneStep b x e = some x') : Running b x' := by
  refine ⟨?_, h.valid.alone hb hstep⟩
  obtain ⟨e', rfl, hm⟩ | ⟨s, rfl, hs, rfl⟩ := aloneStep_cases hstep
  · exact h.live.moves h.valid hb (hw e' rfl) hm
  · exact h.live.unaffected h.valid hs

theorem running_of_run {s : TestResultsStore} {x : TestResultsStore × Stage}
    {events : List AloneEvent} (hb : b.Homogeneous)
    (hw : ∀ e, AloneEvent.own e ∈ events → e.WritesStatus)
    (hrun : run (aloneStep b) (s, .start) events = some x) : Running b x := by
  have hstart : Running b (s, .start) := ⟨trivial, trivial⟩
  have hevents : ∀ e ∈ events, ∀ e', e = AloneEvent.own e' → e'.WritesStatus := by
    rintro e hmem e' rfl
    exact hw e' hmem
  exact run_invariant (fun _ _ _ he hx hstep => Running.step hx hb he hstep) hevents hstart hrun

def Batch.marked (b : Batch) : List Text := if b.params.repoUrl.isEmpty then [] else b.keys

/-- Disk and memory agree on what the batch marked, so rebuilding the commit's file from
disk changes no status. -/
structure StatusesAgree (b : Batch) (s : TestResultsStore) : Prop where
  files : ∀ k ∈ b.marked, diskStatus b s k = s.lookup b.commit k
  rebuilt : ∀ io : CapnpWrite, io.outcome = .written → ∀ k ∈ b.marked,
    ((s.outputDir.commitUpdateResults io b.commit).decoded b.commit)[k]?.map TestResult.status =
      s.lookup b.commit k

theorem decoded_commitUpdateResults (s : TestResultsStore) {io : CapnpWrite}
    (hio : io.outcome = .written) (k : Text) :
    ((s.outputDir.commitUpdateResults io b.commit).decoded b.commit)[k]?.map TestResult.status =
      diskStatus b s k := by
  have hfile := s.outputDir.capnp_resultsToCapnp io b.commit none
    (s.outputDir.commitdirGetResultsFs b.commit) b.commit
  rw [if_pos ⟨rfl, hio⟩] at hfile
  rw [OutputDir.commitUpdateResults, OutputDir.decoded_of_message hfile,
    TestResultsMap.getElem?_published, OutputDir.getElem?_commitdirGetResultsFs, Option.map_map]
  rfl

/-- At return, the status files say what the store says if and only if the batch took no
error exit (or marked nothing, because its repository is not configured). -/
theorem statusesAgree_iff (b : Batch) (s s' : TestResultsStore) (events : List AloneEvent)
    (r : Option TaskError) (hb : b.Homogeneous)
    (hw : ∀ e, AloneEvent.own e ∈ events → e.WritesStatus)
    (hrun : run (aloneStep b) (s, .start) events = some (s', .returned r)) :
    StatusesAgree b s' ↔ b.params.repoUrl = [] ∨ ErrorFree b (s, .start) events := by
  have hlive := (running_of_run hb hw hrun).live
  by_cases hurl : b.params.repoUrl = []
  · have hnone : b.marked = [] := by simp [Batch.marked, hurl]
    exact iff_of_true ⟨by simp [hnone], by simp [hnone]⟩ (.inl hurl)
  · have hmarked : b.marked = b.keys := by simp [Batch.marked, hurl]
    have hfailed := failed_run_iff hurl hrun
    cases r with
    | none =>
      have hfree : ErrorFree b (s, .start) events := by simpa [Failed] using hfailed
      refine iff_of_true ⟨?_, ?_⟩ (.inr hfree)
      · intro k hk
        exact hlive.settled k (hmarked ▸ hk) (by simp)
      · intro io hio k hk
        rw [decoded_commitUpdateResults s' hio]
        exact hlive.settled k (hmarked ▸ hk) (by simp)
    | some e =>
      have hexit : ¬ ErrorFree b (s, .start) events := by simpa [Failed] using hfailed
      refine iff_of_false ?_ (by simp [hurl, hexit])
      intro hagree
      obtain hnil | ⟨k, hk, hlookup, hdisk⟩ := hlive
      · exact hurl hnil
      · have hfiles := hagree.files k (hmarked ▸ hk)
        rw [hdisk, hlookup] at hfiles
        simp at hfiles

def passedDir : ResultDir := (∅ : ResultDir).insert "status".toList ⟨some "PASSED\n".toList, 9⟩

def bootEvents (checkout : CommandOutcome) : List AloneEvent :=
  [.own (.start 5), .own (.mark (.written 5)), .own (.update ⟨"1.0".toList, .written⟩),
    .own (.command checkout), .own (.command (.exited (some 0))), .own (.command (.exited (some 0))),
    .own (.command (.exited (some 1))), .own (.pull (fun _ => some passedDir) (.exited (some 0))),
    .own .read, .own (.update ⟨"1.1".toList, .written⟩), .own (.teardown 12)]

theorem statusesAgree_of_passed : ∃ s', run (aloneStep (bootBatch "git://host/linux".toList))
    (⟨⟨∅, ∅⟩, ∅⟩, .start) (bootEvents (.exited (some 0))) = some (s', .returned none) ∧
      StatusesAgree (bootBatch "git://host/linux".toList) s' := by
  obtain ⟨s', hrun⟩ : ∃ s', run (aloneStep (bootBatch "git://host/linux".toList))
      (⟨⟨∅, ∅⟩, ∅⟩, .start) (bootEvents (.exited (some 0))) = some (s', .returned none) := ⟨_, rfl⟩
  refine ⟨s', hrun, (statusesAgree_iff _ _ _ _ _ (by decide) ?_ hrun).mpr (.inr ?_)⟩
  · intro e he
    simp only [bootEvents, List.mem_cons, AloneEvent.own.injEq, List.not_mem_nil, or_false] at he
    rcases he with rfl | rfl | rfl | rfl | rfl | rfl | rfl | rfl | rfl | rfl | rfl <;> trivial
  · simpa [Failed] using failed_run_iff (by decide) hrun

/-- The checkout fails. The store has that the subtest failed to run; its status file, and
the commit's file once it is rebuilt, have that the test failed. -/
theorem statuses_disagree_after_checkout_failed :
    ∃ s', run (aloneStep (bootBatch "git://host/linux".toList)) (⟨⟨∅, ∅⟩, ∅⟩, .start)
        ((bootEvents (.exited (some 128))).take 4 ++ [.own (.teardown 12), .own .lookup,
          .own (.failWrite (.written 13)), .own (.update ⟨"1.1".toList, .written⟩)]) =
      some (s', .returned (some (.retry "checkout: ssh exited Some(128)".toList))) ∧
    s'.lookup "c0ffee".toList "boot.boot".toList = some .failedToRun ∧
    ((s'.outputDir.resultDir "c0ffee".toList "boot.boot".toList).bind readTestResult).map
      TestResult.status = some .failed ∧
    ((s'.outputDir.commitUpdateResults ⟨"2.0".toList, .written⟩ "c0ffee".toList).decoded
      "c0ffee".toList)["boot.boot".toList]?.map TestResult.status = some .failed := by
  refine ⟨_, rfl, ?_, ?_, ?_⟩ <;> decide +kernel

end BatchRun
end KtestCi
