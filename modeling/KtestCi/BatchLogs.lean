import KtestCi.BatchTrace

/-!
# The log of the run that gave the verdict

After a pull the log of the run is written next to the first subtest that was run, and the
other subtests link to it. What is run again gets a new log or a new link. A link that
stays behind points to the right log as long as the subtest it points to has not been run
again, that is, if its own status came from the same run.
-/

namespace KtestCi
namespace BatchRun

open EventRuns

/-- A `full_log.br`: the log composed after a run, counted from one, or a link to the one of
another key. -/
inductive LogFile where
  | composed (run : ℕ)
  | link (key : Text)
  deriving DecidableEq

abbrev Logs := TextMap LogFile

/-- `symlink` does not replace a file. -/
def symlinkLog (target : Text) (logs : Logs) (key : Text) : Logs :=
  if logs.contains key then logs else logs.insert key (.link target)

def composeLogs (b : Batch) (run : ℕ) (remaining : List Text) (logs : Logs) : Logs :=
  match remaining with
  | [] => logs
  | primary :: others =>
    let logs := TextMap.eraseKeys logs (remaining.map b.key)
    let logs := logs.insert (b.key primary) (.composed run)
    (others.map b.key).foldl (symlinkLog (b.key primary)) logs

/-- What reading a log finds, over so many links. -/
def followLog (logs : Logs) : ℕ → Text → Option ℕ
  | 0, _ => none
  | links + 1, key => match logs[key]? with
    | none => none
    | some (.composed run) => some run
    | some (.link target) => followLog logs links target

/-- A batch and its logs. -/
structure Logged where
  batch : Traced
  logs : Logs

variable (b : Batch)

def noteLogs (x : Traced) : AloneEvent → Logs → Logs
  | .own (.pull _ (.exited (some 0))), logs => match x.stage with
    | .pulling remaining _ _ => composeLogs b x.runs.length remaining logs
    | _ => logs
  | _, logs => logs

def loggedStep (y : Logged) (e : AloneEvent) : Option Logged :=
  (tracedStep b y.batch e).map (fun x => ⟨x, noteLogs b y.batch e y.logs⟩)

def symlinksSucceed (target : Text) : List Text → Logs → Bool
  | [], _ => true
  | key :: keys, logs => !logs.contains key && symlinksSucceed target keys (symlinkLog target logs key)

def linksSucceed (y : Logged) : AloneEvent → Bool
  | .own (.pull _ (.exited (some 0))) => match y.batch.stage with
    | .pulling (primary :: others) _ _ =>
      let logs := TextMap.eraseKeys y.logs ((primary :: others).map b.key)
      symlinksSucceed (b.key primary) (others.map b.key)
        (logs.insert (b.key primary) (.composed y.batch.runs.length))
    | _ => true
  | _ => true

variable {b}

theorem getElem?_foldl_symlinkLog (target : Text) (keys : List Text) :
    ∀ {logs : Logs}, keys.Nodup → (∀ k ∈ keys, k ∉ logs) → ∀ k : Text,
      (keys.foldl (symlinkLog target) logs)[k]? = if k ∈ keys then some (.link target) else logs[k]? := by
  induction keys with
  | nil => simp
  | cons key keys ih =>
    intro logs hnodup hnew k
    obtain ⟨hnot, hnodup⟩ := List.nodup_cons.mp hnodup
    have hlinked : symlinkLog target logs key = logs.insert key (.link target) := by
      rw [symlinkLog, if_neg]
      rw [← Std.ExtTreeMap.mem_iff_contains]
      exact hnew key List.mem_cons_self
    have hrest : ∀ k' ∈ keys, k' ∉ symlinkLog target logs key := by
      intro k' hk' hmem
      rw [hlinked] at hmem
      rcases Std.ExtTreeMap.mem_insert.mp hmem with heq | hmem
      · rw [Std.LawfulEqCmp.eq_of_compare heq] at hnot
        exact hnot hk'
      · exact hnew k' (List.mem_cons_of_mem key hk') hmem
    rw [List.foldl_cons, ih hnodup hrest, hlinked, TextMap.getElem?_insert]
    by_cases hk : k ∈ keys
    · simp [hk]
    · by_cases heq : key = k
      · simp [heq]
      · simp [hk, heq, Ne.symm heq]

theorem getElem?_composeLogs {primary : Text} {others : List Text} {run : ℕ} {logs : Logs}
    (hnodup : ((primary :: others).map b.key).Nodup) (k : Text) :
    (composeLogs b run (primary :: others) logs)[k]? =
      if k = b.key primary then some (.composed run)
      else if k ∈ others.map b.key then some (.link (b.key primary)) else logs[k]? := by
  obtain ⟨hnot, hothers⟩ := List.nodup_cons.mp hnodup
  have hnew : ∀ k ∈ others.map b.key, k ∉ (TextMap.eraseKeys logs
      ((primary :: others).map b.key)).insert (b.key primary) (.composed run) := by
    intro k hk hmem
    obtain ⟨f, hf⟩ := TextMap.mem_iff_exists.mp hmem
    have hne : b.key primary ≠ k := fun heq => hnot (heq ▸ hk)
    have hold : k ∈ (primary :: others).map b.key := List.mem_cons_of_mem _ hk
    rw [TextMap.getElem?_insert, if_neg hne, TextMap.getElem?_eraseKeys, if_pos hold] at hf
    simp at hf
  simp only [composeLogs]
  rw [getElem?_foldl_symlinkLog _ _ hothers hnew, TextMap.getElem?_insert, TextMap.getElem?_eraseKeys]
  by_cases hp : k = b.key primary
  · subst hp
    simp [hnot]
  · by_cases hk : k ∈ others.map b.key
    · simp [hp, hk]
    · have hmem : k ∉ (primary :: others).map b.key := by
        rw [List.map_cons, List.mem_cons]
        tauto
      rw [if_neg hk, if_neg (Ne.symm hp), if_neg hmem, if_neg hp, if_neg hk]

/-- The log a subtest has after these runs: that of the latest run it was part of. -/
def expectedLog (b : Batch) (initial : Logs) : List VmRun → Text → Option LogFile
  | [], st => initial[b.key st]?
  | r :: earlier, st =>
    if st ∈ r.passed then
      if r.passed.head? = some st then some (.composed (earlier.length + 1))
      else r.passed.head?.map (fun primary => .link (b.key primary))
    else expectedLog b initial earlier st

/-- The runs whose logs have been composed; none are of interest after an error. -/
def loggedRuns : Stage → List VmRun → Option (List VmRun)
  | .pulling _ _ _, runs => some runs.tail
  | .teardown (some _), _ | .failing _ _ _ _, _ | .failWrite _ _ _ _ _, _ | .returned (some _), _ => none
  | _, runs => some runs

def LogsMatch (b : Batch) (initial : Logs) (y : Logged) : Prop :=
  ∀ runs, loggedRuns y.batch.stage y.batch.runs = some runs → ∀ st ∈ b.subtests,
    y.logs[b.key st]? = expectedLog b initial runs st

theorem expectedLog_noteRead {initial : Logs} (s : TestResultsStore) (st : Text) (runs : List VmRun) :
    expectedLog b initial (noteRead b s st runs) = expectedLog b initial runs := by
  cases runs <;> rfl

theorem key_inj {st st' : Text} (hkeys : b.keys.Nodup) (hst : st ∈ b.subtests) (hst' : st' ∈ b.subtests)
    (h : b.key st = b.key st') : st = st' := List.inj_on_of_nodup_map hkeys hst hst' h

theorem expectedLog_composeLogs {initial logs : Logs} {rs : List VmRun} {remaining : List Text}
    {spare : ℕ} (hkeys : b.keys.Nodup) (hloop : Looping b rs remaining spare)
    (h : ∀ st ∈ b.subtests, logs[b.key st]? = expectedLog b initial rs st) {st : Text}
    (hst : st ∈ b.subtests) :
    (composeLogs b (rs.length + 1) remaining logs)[b.key st]? =
      expectedLog b initial (⟨remaining, []⟩ :: rs) st := by
  have hnodup := hloop.nodup_keys hkeys
  have hsub : remaining ⊆ b.subtests := by
    rw [hloop.left]
    exact List.filter_sublist.subset
  cases remaining with
  | nil => exact absurd rfl hloop.ne_nil
  | cons primary others =>
    rw [getElem?_composeLogs hnodup, expectedLog]
    by_cases hp : st = primary
    · simp [hp]
    · have hkey : b.key st ≠ b.key primary :=
        fun heq => hp (key_inj hkeys hst (hsub List.mem_cons_self) heq)
      have hothers : b.key st ∈ others.map b.key ↔ st ∈ others := by
        constructor
        · intro hmem
          obtain ⟨st', hst', heq⟩ := List.mem_map.mp hmem
          exact key_inj hkeys (hsub (List.mem_cons_of_mem primary hst')) hst heq ▸ hst'
        · exact fun hmem => List.mem_map.mpr ⟨st, hmem, rfl⟩
      rw [if_neg hkey, h st hst]
      by_cases hmem : st ∈ others
      · rw [if_pos (hothers.mpr hmem), if_pos (List.mem_cons_of_mem primary hmem),
          if_neg (by simpa using Ne.symm hp)]
        rfl
      · rw [if_neg (mt hothers.mp hmem), if_neg (by simp [hp, hmem])]

theorem loggedRuns_resume {remaining : List Text} {didClean : Bool} {now : ℤ} {runs runs' : List VmRun}
    (h : loggedRuns (resume remaining didClean now) runs = some runs') : runs' = runs := by
  unfold resume at h
  split_ifs at h <;> exact (Option.some.inj h).symm

theorem LogsMatch.own {initial logs : Logs} {s s' : TestResultsStore} {stage stage' : Stage}
    {marked : Bool} {runs : List VmRun} {e : Event}
    (h : LogsMatch b initial ⟨⟨s, stage, marked, runs⟩, logs⟩) (hloop : InLoop b runs stage)
    (hkeys : b.keys.Nodup) (hm : Moves b s stage e s' stage') :
    LogsMatch b initial ⟨⟨s', stage', noteMarked stage marked, noteRuns b s stage runs⟩,
      noteLogs b ⟨s, stage, marked, runs⟩ (.own e) logs⟩ := by
  intro runs' hruns'
  cases hm with
  | fatal | setupFailed | superviseFailed | pullFailed | cleanFailed | fail | lookupInprogress
  | lookupOther | failWrite | failed => simp [loggedRuns] at hruns'
  | start | mark | marked | succeed => exact h runs' hruns'
  | setup outcome hsetup hok => cases hsetup <;> exact h runs' hruns'
  | supervised remaining didClean now code => exact h runs' hruns'
  | pulled remaining didClean now dirs =>
    obtain ⟨rs, rfl, hlooping⟩ := hloop
    obtain rfl := Option.some.inj hruns'
    exact fun st hst => expectedLog_composeLogs hkeys hlooping (h rs rfl) hst
  | read st todo remaining next verdicts didClean now =>
    obtain rfl := Option.some.inj hruns'
    intro st' hst'
    rw [noteRuns, expectedLog_noteRead]
    exact h runs rfl st' hst'
  | recorded remaining next verdicts didClean now io =>
    obtain rfl : runs' = runs := by
      unfold afterVerdicts at hruns'
      split_ifs at hruns'
      · simp [loggedRuns] at hruns'
      · exact (Option.some.inj hruns').symm
      · exact loggedRuns_resume hruns'
    exact h runs' rfl
  | cleaned remaining now code =>
    obtain rfl := loggedRuns_resume hruns'
    exact h _ rfl

theorem LogsMatch.step {initial : Logs} {y y' : Logged} {e : AloneEvent}
    (h : Chronicle b y.batch ∧ LogsMatch b initial y) (hkeys : b.keys.Nodup)
    (hstep : loggedStep b y e = some y') : Chronicle b y'.batch ∧ LogsMatch b initial y' := by
  obtain ⟨x', hx', rfl⟩ := Option.map_eq_some_iff.mp hstep
  refine ⟨h.1.step hkeys hx', ?_⟩
  obtain ⟨⟨s, stage, marked, runs⟩, logs⟩ := y
  obtain ⟨e', rfl, hm, hmarked, hruns⟩ | ⟨s', rfl, -, rfl⟩ := tracedStep_cases hx'
  · obtain ⟨s', stage', marked', runs'⟩ := x'
    obtain rfl : marked' = _ := hmarked
    obtain rfl : runs' = _ := hruns
    exact h.2.own h.1.loop hkeys hm
  · exact h.2

theorem LogsMatch.run {initial : Logs} {s : TestResultsStore} {es : List AloneEvent} {y : Logged}
    (hkeys : b.keys.Nodup) (hrun : run (loggedStep b) ⟨.start s, initial⟩ es = some y) :
    Chronicle b y.batch ∧ LogsMatch b initial y := by
  refine run_invariant_all (fun _ _ _ h hstep => LogsMatch.step h hkeys hstep) ⟨chronicle_start b s, ?_⟩ hrun
  intro runs hruns st hst
  obtain rfl := Option.some.inj hruns
  rfl

theorem RunsInOrder.notMem_later {later earlier : List VmRun} {r : VmRun} {st : Text}
    (h : RunsInOrder b (later ++ r :: earlier)) (hst : r.Settles st) : ∀ r' ∈ later, st ∉ r'.passed := by
  intro r' hr'
  obtain ⟨before, between, rfl⟩ := List.append_of_mem hr'
  have hsuffix : (r' :: (between ++ r :: earlier)) <:+ before ++ r' :: between ++ r :: earlier :=
    ⟨before, by simp⟩
  exact h.not_again hsuffix (List.mem_append_right between List.mem_cons_self) hst

theorem expectedLog_append {initial : Logs} {later earlier : List VmRun} {st : Text}
    (h : ∀ r ∈ later, st ∉ r.passed) :
    expectedLog b initial (later ++ earlier) st = expectedLog b initial earlier st := by
  induction later with
  | nil => rfl
  | cons r later ih =>
    rw [List.cons_append, expectedLog, if_neg (h r List.mem_cons_self)]
    exact ih (fun r' hr' => h r' (List.mem_cons_of_mem r hr'))

theorem pending_append (later earlier : List VmRun) (st : Text) :
    pending (later ++ earlier) st = (pending later st && pending earlier st) := by
  simp [pending]

theorem RunsInOrder.head_again {before between earlier : List VmRun} {r r' : VmRun} {primary : Text}
    (h : RunsInOrder b (before ++ r' :: (between ++ r :: earlier)))
    (hhead : r.passed.head? = some primary) (hmem : primary ∈ r'.passed) :
    r'.passed.head? = some primary := by
  have hr : r.passed = left b earlier := h.passed r earlier ⟨before ++ r' :: between, by simp⟩
  have hr' : r'.passed = left b (between ++ r :: earlier) := h.passed r' _ ⟨before, rfl⟩
  have hsplit : r'.passed = r.passed.filter (pending (between ++ [r])) := by
    rw [hr', hr, left, left, List.filter_filter]
    apply List.filter_congr
    intro st _
    rw [← pending_append, List.append_assoc, List.singleton_append]
  obtain ⟨others, hothers⟩ : ∃ others, r.passed = primary :: others := by
    cases hpassed : r.passed with
    | nil => simp [hpassed] at hhead
    | cons st others =>
      rw [hpassed] at hhead
      exact ⟨others, by rw [Option.some.inj hhead]⟩
  rw [hsplit] at hmem ⊢
  rw [hothers, List.filter_cons_of_pos (List.mem_filter.mp hmem).2, List.head?_cons]

/-- Every log is the one of the run that gave the status. -/
def Provenance (b : Batch) (y : Logged) : Prop :=
  ∀ r earlier, (r :: earlier) <:+ y.batch.runs → ∀ st, r.Settles st →
    followLog y.logs 40 (b.key st) = some (earlier.length + 1)

/-- A run that has settled anything has settled the first of its subtests. -/
def PrimariesSettle (runs : List VmRun) : Prop :=
  ∀ r ∈ runs, (∃ st, r.Settles st) → ∀ primary ∈ r.passed.head?, r.Settles primary

theorem VmRun.Settles.mem_passed {runs : List VmRun} {r : VmRun} {st : Text} (hst : r.Settles st)
    (h : RunsInOrder b runs) (hr : r ∈ runs) : st ∈ r.passed := by
  obtain ⟨res, hmem, -⟩ := hst
  exact h.pulled r hr _ hmem

theorem expectedLog_settled {initial : Logs} {later earlier : List VmRun} {r : VmRun} {st : Text}
    (h : RunsInOrder b (later ++ r :: earlier)) (hst : r.Settles st) :
    expectedLog b initial (later ++ r :: earlier) st =
      if r.passed.head? = some st then some (.composed (earlier.length + 1))
      else r.passed.head?.map (fun primary => .link (b.key primary)) := by
  rw [expectedLog_append (h.notMem_later hst), expectedLog, if_pos (hst.mem_passed h (by simp))]

theorem followLog_composed {logs : Logs} {key : Text} {run : ℕ} (links : ℕ)
    (h : logs[key]? = some (.composed run)) : followLog logs (links + 1) key = some run := by
  rw [followLog, h]

theorem followLog_link {logs : Logs} {key target : Text} {run : ℕ} (links : ℕ)
    (h : logs[key]? = some (.link target)) (htarget : logs[target]? = some (.composed run)) :
    followLog logs (links + 2) key = some run := by
  rw [followLog, h]
  exact followLog_composed links htarget

/-- A first subtest that its run has not settled was settled by a later run, as its first
subtest again. -/
theorem exists_later_run {later earlier : List VmRun} {r : VmRun} {primary : Text}
    (h : RunsInOrder b (later ++ r :: earlier)) (hleft : left b (later ++ r :: earlier) = [])
    (hprimary : r.passed.head? = some primary) (hnot : ¬ r.Settles primary) :
    ∃ before r' between, later = before ++ r' :: between ∧ r'.Settles primary ∧
      r'.passed.head? = some primary := by
  have hpassed : primary ∈ r.passed := List.mem_of_head? hprimary
  have hsuffix : (r :: earlier) <:+ later ++ r :: earlier := List.suffix_append _ _
  have hsubtest : primary ∈ b.subtests := by
    rw [h.passed r earlier hsuffix] at hpassed
    exact (List.mem_filter.mp hpassed).1
  have hpending : pending (later ++ r :: earlier) primary = false := by
    simpa using List.filter_eq_nil_iff.mp hleft primary hsubtest
  obtain ⟨r', hr', hsettles⟩ := exists_settles_of_not_pending hpending
  rcases List.mem_append.mp hr' with hr' | hr'
  · obtain ⟨before, between, rfl⟩ := List.append_of_mem hr'
    rw [List.append_assoc, List.cons_append] at h
    exact ⟨before, r', between, rfl, hsettles,
      h.head_again hprimary (hsettles.mem_passed h (by simp))⟩
  · rcases List.mem_cons.mp hr' with rfl | hr'
    · exact absurd hsettles hnot
    · exact absurd hpassed (h.not_again hsuffix hr' hsettles)

theorem nodup_of_symlinksSucceed {target : Text} {keys : List Text} {logs : Logs}
    (h : symlinksSucceed target keys logs = true) : keys.Nodup ∧ ∀ k ∈ keys, k ∉ logs := by
  induction keys generalizing logs with
  | nil => simp
  | cons key keys ih =>
    simp only [symlinksSucceed, Bool.and_eq_true, Bool.not_eq_true'] at h
    have hkey : key ∉ logs := by simpa [← Std.ExtTreeMap.contains_iff_mem] using h.1
    obtain ⟨hnodup, hnew⟩ := ih h.2
    have hlinked : symlinkLog target logs key = logs.insert key (.link target) := by
      simp [symlinkLog, h.1]
    rw [hlinked] at hnew
    refine ⟨List.nodup_cons.mpr ⟨fun hmem => hnew key hmem (by simp), hnodup⟩, ?_⟩
    intro k hk
    rcases List.mem_cons.mp hk with rfl | hk
    · exact hkey
    · exact fun hmem => hnew k hk (by simp [hmem])

def BeforeLinks (b : Batch) : Stage → Prop
  | .supervise remaining _ _ | .pulling remaining _ _ => remaining = b.subtests
  | .collecting _ _ _ _ _ _ | .cleaning _ _ | .teardown none | .returned none => False
  | _ => True

theorem keys_nodup_of_linksSucceed {y : Logged} {dirs : Text → Option ResultDir} {didClean : Bool}
    {now : ℤ} (hstage : y.batch.stage = .pulling b.subtests didClean now)
    (h : linksSucceed b y (.own (.pull dirs (.exited (some 0)))) = true) : b.keys.Nodup := by
  cases hsub : b.subtests with
  | nil => exact absurd hsub (subtests_ne_nil b)
  | cons primary others =>
    simp only [linksSucceed, hstage, hsub] at h
    obtain ⟨hnodup, hnew⟩ := nodup_of_symlinksSucceed h
    rw [Batch.keys, hsub, List.map_cons]
    exact List.nodup_cons.mpr ⟨fun hmem => hnew _ hmem (by simp), hnodup⟩

theorem BeforeLinks.moves {s s' : TestResultsStore} {st st' : Stage} {e : Event}
    (h : BeforeLinks b st) (hm : Moves b s st e s' st') : BeforeLinks b st' ∨
      ∃ dirs didClean now, st = .pulling b.subtests didClean now ∧ e = .pull dirs (.exited (some 0)) := by
  cases hm with
  | pulled remaining didClean now dirs =>
    obtain rfl : remaining = b.subtests := h
    exact .inr ⟨dirs, didClean, now, rfl, rfl⟩
  | setup outcome hsetup hok =>
    cases hsetup with
    | prepare now => exact .inl rfl
    | _ => exact .inl trivial
  | supervised remaining didClean now code => exact .inl h
  | read => exact h.elim
  | recorded => exact h.elim
  | cleaned => exact h.elim
  | cleanFailed => exact h.elim
  | succeed => exact h.elim
  | _ => exact .inl trivial

theorem keys_nodup_of_along {s : TestResultsStore} {initial : Logs} {es : List AloneEvent} {y : Logged}
    (hlinks : along (linksSucceed b) (loggedStep b) ⟨.start s, initial⟩ es = true)
    (hrun : run (loggedStep b) ⟨.start s, initial⟩ es = some y)
    (hstage : y.batch.stage = .returned none) : b.keys.Nodup := by
  have hstep : ∀ y e y', linksSucceed b y e = true → b.keys.Nodup ∨ BeforeLinks b y.batch.stage →
      loggedStep b y e = some y' → b.keys.Nodup ∨ BeforeLinks b y'.batch.stage := by
    intro y e y' hok h hstep
    rcases h with h | h
    · exact .inl h
    obtain ⟨x, hx, rfl⟩ := Option.map_eq_some_iff.mp hstep
    obtain ⟨e', rfl, hm, -, -⟩ | ⟨s, rfl, -, rfl⟩ := tracedStep_cases hx
    · rcases h.moves hm with h' | ⟨dirs, didClean, now, hpulling, rfl⟩
      · exact .inr h'
      · exact .inl (keys_nodup_of_linksSucceed hpulling hok)
    · exact .inr h
  rcases run_invariant_along hstep hlinks (.inr trivial) hrun with h | h
  · exact h
  · simp [hstage, BeforeLinks] at h

/-- When a batch has succeeded, all logs are those of the runs that gave the statuses exactly
if every run that settled something settled the first of its subtests. -/
theorem provenance_iff (b : Batch) (s : TestResultsStore) (initial : Logs) (es : List AloneEvent)
    (y : Logged) (hlinks : along (linksSucceed b) (loggedStep b) ⟨.start s, initial⟩ es = true)
    (hrun : run (loggedStep b) ⟨.start s, initial⟩ es = some y)
    (hstage : y.batch.stage = .returned none) : Provenance b y ↔ PrimariesSettle y.batch.runs := by
  obtain ⟨hchronicle, hmatch⟩ := LogsMatch.run (keys_nodup_of_along hlinks hrun hstage) hrun
  have horder := hchronicle.order
  have hlogs : ∀ st ∈ b.subtests, y.logs[b.key st]? = expectedLog b initial y.batch.runs st :=
    hmatch y.batch.runs (by rw [hstage]; rfl)
  have hsubtests : ∀ r ∈ y.batch.runs, ∀ st, r.Settles st → st ∈ b.subtests := by
    rintro r hr st ⟨res, hmem, -⟩
    exact horder.mem_subtests hr hmem
  constructor
  · rintro hprovenance r hr ⟨st, hst⟩ primary hprimary
    rw [Option.mem_def] at hprimary
    by_contra hnot
    have hleft : left b y.batch.runs = [] := by
      have hloop := hchronicle.loop
      rwa [hstage] at hloop
    obtain ⟨later, earlier, hlater⟩ := List.append_of_mem hr
    rw [hlater] at horder hlogs hleft
    obtain ⟨before, r', between, rfl, hsettles, hhead⟩ := exists_later_run horder hleft hprimary hnot
    have hne : primary ≠ st := by
      rintro rfl
      exact hnot hst
    have hlink := hlogs st (hsubtests r hr st hst)
    rw [expectedLog_settled horder hst, if_neg (by simpa [hprimary] using hne), hprimary] at hlink
    rw [List.append_assoc, List.cons_append] at horder hlogs
    have hr' : r' ∈ y.batch.runs := by simp [hlater]
    have hcomposed := hlogs primary (hsubtests r' hr' primary hsettles)
    rw [expectedLog_settled horder hsettles, if_pos hhead] at hcomposed
    have hfollow := hprovenance r earlier ⟨before ++ r' :: between, hlater.symm⟩ st hst
    rw [followLog_link 38 hlink hcomposed, Option.some.injEq, List.length_append,
      List.length_cons] at hfollow
    omega
  · rintro hsettle r earlier ⟨later, hlater⟩ st hst
    have hr : r ∈ y.batch.runs := by simp [← hlater]
    rw [← hlater] at horder hlogs
    have hmem := hst.mem_passed horder (by simp)
    obtain ⟨primary, hprimary⟩ : ∃ primary, r.passed.head? = some primary := by
      cases hpassed : r.passed with
      | nil => simp [hpassed] at hmem
      | cons primary others => exact ⟨primary, rfl⟩
    have hfirst := hsettle r hr ⟨st, hst⟩ primary hprimary
    have hcomposed := hlogs primary (hsubtests r hr primary hfirst)
    rw [expectedLog_settled horder hfirst, if_pos hprimary] at hcomposed
    by_cases heq : primary = st
    · exact heq ▸ followLog_composed 39 hcomposed
    · have hlink := hlogs st (hsubtests r hr st hst)
      rw [expectedLog_settled horder hst, if_neg (by simpa [hprimary] using heq), hprimary] at hlink
      exact followLog_link 38 hlink hcomposed

/-- The first run settles `b` but not `a`, which is first in it; the second run replaces the
log that `b` links to. -/
theorem not_provenance_pair : ¬ ∀ (b : Batch) (s : TestResultsStore) (initial : Logs)
    (es : List AloneEvent) (y : Logged),
      along (linksSucceed b) (loggedStep b) ⟨.start s, initial⟩ es = true →
      run (loggedStep b) ⟨.start s, initial⟩ es = some y →
      y.batch.stage = .returned none → Provenance b y := by
  intro hall
  obtain ⟨y, hrun, hstage, hruns, hfollow⟩ : ∃ y, run (loggedStep (pairBatch "git://host/linux".toList))
      ⟨.start ⟨⟨∅, ∅⟩, ∅⟩, ∅⟩ pairEvents = some y ∧ y.batch.stage = .returned none ∧
      y.batch.runs.tail = [⟨["a".toList, "b".toList], [("a".toList, some ⟨.inprogress, 0, 0⟩),
        ("b".toList, some ⟨.passed, 0, 0⟩)]⟩] ∧
      followLog y.logs 40 "pair.b".toList = some 2 := ⟨_, rfl, rfl, rfl, by decide +kernel⟩
  have hprovenance := hall _ _ _ _ y (by decide +kernel) hrun hstage
  have hone := hprovenance _ [] (hruns ▸ List.tail_suffix _) "b".toList
    ⟨⟨.passed, 0, 0⟩, by simp, by simp⟩
  have hkey : (pairBatch "git://host/linux".toList).key "b".toList = "pair.b".toList := by decide +kernel
  rw [hkey, hfollow] at hone
  simp at hone

def orderlyEvents : List AloneEvent :=
  pairSetup ++ pairRun [("pair.a".toList, "PASSED".toList), ("pair.b".toList, "IN PROGRESS".toList)] 2 ++
    pairRun [("pair.b".toList, "PASSED".toList)] 1 ++ [.own (.teardown 0)]

theorem provenance_pair : ∃ y, run (loggedStep (pairBatch "git://host/linux".toList))
    ⟨.start ⟨⟨∅, ∅⟩, ∅⟩, ∅⟩ orderlyEvents = some y ∧ y.batch.stage = .returned none ∧
      Provenance (pairBatch "git://host/linux".toList) y := by
  obtain ⟨y, hrun, hstage, hruns⟩ : ∃ y, run (loggedStep (pairBatch "git://host/linux".toList))
      ⟨.start ⟨⟨∅, ∅⟩, ∅⟩, ∅⟩ orderlyEvents = some y ∧ y.batch.stage = .returned none ∧
      y.batch.runs = [⟨["b".toList], [("b".toList, some ⟨.passed, 0, 0⟩)]⟩,
        ⟨["a".toList, "b".toList], [("a".toList, some ⟨.passed, 0, 0⟩),
          ("b".toList, some ⟨.inprogress, 0, 0⟩)]⟩] := ⟨_, rfl, rfl, rfl⟩
  refine ⟨y, hrun, hstage, (provenance_iff _ _ _ _ y (by decide +kernel) hrun hstage).mpr ?_⟩
  rw [hruns]
  intro r hr _ primary hprimary
  rcases List.mem_pair.mp hr with rfl | rfl
  · obtain rfl := Option.some.inj hprimary
    exact ⟨⟨.passed, 0, 0⟩, by simp, by simp⟩
  · obtain rfl := Option.some.inj hprimary
    exact ⟨⟨.passed, 0, 0⟩, by simp, by simp⟩

end BatchRun
end KtestCi
