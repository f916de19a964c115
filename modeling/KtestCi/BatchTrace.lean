import KtestCi.BatchAlone
import KtestCi.BatchVerdicts

/-!
# The runs of a batch, written down

The machine of one batch with a record of its supervisor runs: which subtests each run was
given, and what was read back for them. The record does not influence the machine. The
subtests that are left are those for which no run has given a status, and a verdict that a
run has given stands in the store.
-/

namespace KtestCi
namespace BatchRun

open EventRuns

/-- One run of the supervisor, with the statuses read back after it. -/
structure VmRun where
  passed : List Text
  pulled : List (Text × Option TestResult)

/-- No status, or one in progress. -/
def isOpen (r : Option TestResult) : Bool := r.all (fun r => r.status = .inprogress)

def pending (runs : List VmRun) (st : Text) : Bool :=
  runs.all (fun r => r.pulled.all (fun p => p.1 ≠ st || isOpen p.2))

def VmRun.Settles (r : VmRun) (st : Text) : Prop :=
  ∃ res : TestResult, (st, some res) ∈ r.pulled ∧ res.status ≠ .inprogress

/-- The machine and its record, the latest run first. -/
structure Traced where
  store : TestResultsStore
  stage : Stage
  marked : Bool
  runs : List VmRun

def Traced.start (s : TestResultsStore) : Traced := ⟨s, .start, false, []⟩

variable (b : Batch)

def noteRead (s : TestResultsStore) (st : Text) : List VmRun → List VmRun
  | [] => []
  | r :: rs => { r with pulled := r.pulled ++ [(st, diskResult b s (b.key st))] } :: rs

def noteRuns (s : TestResultsStore) : Stage → List VmRun → List VmRun
  | .supervise remaining _ _, runs => ⟨remaining, []⟩ :: runs
  | .collecting (st :: _) _ _ _ _ _, runs => noteRead b s st runs
  | _, runs => runs

def noteMarked : Stage → Bool → Bool
  | .marking [] _ _, _ => true
  | _, marked => marked

def tracedStep (x : Traced) : AloneEvent → Option Traced
  | .own e => (step b x.store x.stage e).map (fun y =>
      ⟨y.1, y.2, noteMarked x.stage x.marked, noteRuns b x.store x.stage x.runs⟩)
  | .other s => if Unaffected b x.store s then some { x with store := s } else none

variable {b}

theorem tracedStep_cases {x x' : Traced} {e : AloneEvent} (h : tracedStep b x e = some x') :
    (∃ e', e = .own e' ∧ Moves b x.store x.stage e' x'.store x'.stage ∧
      x'.marked = noteMarked x.stage x.marked ∧ x'.runs = noteRuns b x.store x.stage x.runs) ∨
    (∃ s, e = .other s ∧ Unaffected b x.store s ∧ x' = { x with store := s }) := by
  cases e with
  | own e' =>
    obtain ⟨⟨s', st'⟩, hstep, rfl⟩ := Option.map_eq_some_iff.mp h
    exact .inl ⟨e', rfl, moves_of_step b hstep, rfl, rfl⟩
  | other s =>
    simp only [tracedStep] at h
    split_ifs at h with hs
    exact .inr ⟨s, rfl, hs, (Option.some.inj h).symm⟩

theorem aloneStep_traced (x : Traced) (e : AloneEvent) :
    aloneStep b (x.store, x.stage) e = (tracedStep b x e).map (fun y => (y.store, y.stage)) := by
  cases e with
  | own e => simp [aloneStep, tracedStep, Option.map_map, Function.comp_def]
  | other s =>
    simp only [aloneStep, tracedStep]
    split_ifs <;> rfl

theorem Valid.traced {x x' : Traced} {e : AloneEvent} (h : Valid b x.stage) (hb : b.Homogeneous)
    (hstep : tracedStep b x e = some x') : Valid b x'.stage := by
  have halone : aloneStep b (x.store, x.stage) e = some (x'.store, x'.stage) := by
    rw [aloneStep_traced, hstep, Option.map_some]
  exact h.alone hb halone

theorem pending_cons (r : VmRun) (rs : List VmRun) (st : Text) :
    pending (r :: rs) st = (r.pulled.all (fun p => p.1 ≠ st || isOpen p.2) && pending rs st) := rfl

theorem pending_eq_false {runs : List VmRun} {r : VmRun} {st : Text} (hr : r ∈ runs)
    (h : r.Settles st) : pending runs st = false := by
  obtain ⟨res, hmem, hstatus⟩ := h
  rw [← Bool.not_eq_true, pending, List.all_eq_true]
  intro hall
  have hopen := List.all_eq_true.mp (hall r hr) _ hmem
  simp [isOpen, hstatus] at hopen

theorem exists_settles_of_not_pending {runs : List VmRun} {st : Text} (h : pending runs st = false) :
    ∃ r ∈ runs, r.Settles st := by
  rw [pending, List.all_eq_false] at h
  obtain ⟨r, hr, h⟩ := h
  rw [Bool.not_eq_true, List.all_eq_false] at h
  obtain ⟨⟨st', res⟩, hp, h⟩ := h
  cases res with
  | none => simp [isOpen] at h
  | some res =>
    obtain ⟨rfl, hstatus⟩ : st' = st ∧ res.status ≠ .inprogress := by simpa [isOpen] using h
    exact ⟨r, hr, res, hp, hstatus⟩

def left (b : Batch) (runs : List VmRun) : List Text := b.subtests.filter (pending runs)

theorem nodup_subtests (hkeys : b.keys.Nodup) : b.subtests.Nodup := List.Nodup.of_map b.key hkeys

theorem filter_open {pulled : List (Text × Option TestResult)}
    (hnodup : (pulled.map Prod.fst).Nodup) :
    (pulled.map Prod.fst).filter (fun st => pulled.all (fun p => p.1 ≠ st || isOpen p.2)) =
      (pulled.filter (fun p => isOpen p.2)).map Prod.fst := by
  rw [List.filter_map]
  congr 1
  apply List.filter_congr
  intro q hq
  rw [Function.comp_apply, Bool.eq_iff_iff, List.all_eq_true]
  constructor
  · intro h
    simpa using h q hq
  · intro h p hp
    by_cases heq : p.1 = q.1
    · rw [List.inj_on_of_nodup_map hnodup hp hq heq, h]
      simp
    · simp [heq]

theorem left_recorded {remaining : List Text} {pulled : List (Text × Option TestResult)}
    {rs : List VmRun} (hkeys : b.keys.Nodup) (hremaining : remaining = left b rs)
    (hpulled : pulled.map Prod.fst = remaining) :
    (pulled.filter (fun p => isOpen p.2)).map Prod.fst = left b (⟨remaining, pulled⟩ :: rs) := by
  have hnodup : (pulled.map Prod.fst).Nodup := by
    rw [hpulled, hremaining]
    exact (nodup_subtests hkeys).filter _
  rw [← filter_open hnodup, hpulled, hremaining, left, left, List.filter_filter]
  rfl

theorem left_nil (b : Batch) : left b [] = b.subtests := by
  simp [left, pending]

theorem isOpen_iff (r : Option TestResult) (now : ℤ) :
    (r.getD ⟨.inprogress, now, 0⟩).status = .inprogress ↔ isOpen r = true := by
  cases r <;> simp [isOpen]

/-- The runs that the loop may make beyond one for every subtest. -/
def spareRuns (didClean : Bool) : ℕ := if didClean then 0 else 1

variable (b)

/-- The loop is at work on what is left, within its budget of runs. -/
structure Looping (runs : List VmRun) (remaining : List Text) (spare : ℕ) : Prop where
  left : remaining = left b runs
  ne_nil : remaining ≠ []
  budget : runs.length + remaining.length + spare ≤ b.jobs.length + 1
  complete : ∀ r ∈ runs, r.pulled.map Prod.fst = r.passed

structure Reading (todo remaining next : List Text) (verdicts : TestResultsMap) (now : ℤ)
    (pulled : List (Text × Option TestResult)) : Prop where
  order : pulled.map Prod.fst ++ todo = remaining
  next : next = (pulled.filter (fun p => isOpen p.2)).map Prod.fst
  recorded : ∀ p ∈ pulled, verdicts[b.key p.1]? = some (p.2.getD ⟨.inprogress, now, 0⟩)
  keys : ∀ k ∈ verdicts, k ∈ remaining.map b.key

def InLoop (runs : List VmRun) : Stage → Prop
  | .start | .marking _ _ _ | .checkout _ | .syncKtest _ | .buildSupervisor _ | .prepare _ => runs = []
  | .supervise remaining didClean _ => Looping b runs remaining (spareRuns didClean)
  | .pulling remaining didClean _ =>
    ∃ rs, runs = ⟨remaining, []⟩ :: rs ∧ Looping b rs remaining (spareRuns didClean)
  | .collecting todo remaining next verdicts didClean now => ∃ pulled rs,
      runs = ⟨remaining, pulled⟩ :: rs ∧ Looping b rs remaining (spareRuns didClean) ∧
      Reading b todo remaining next verdicts now pulled
  | .cleaning remaining _ => Looping b runs remaining 0
  | .teardown none | .returned none => left b runs = []
  | .teardown (some _) | .failing _ _ _ _ | .failWrite _ _ _ _ _ | .returned (some _) => True

variable {b}

theorem Looping.nodup_keys {runs : List VmRun} {remaining : List Text} {spare : ℕ}
    (h : Looping b runs remaining spare) (hkeys : b.keys.Nodup) : (remaining.map b.key).Nodup := by
  rw [h.left]
  exact hkeys.sublist (List.filter_sublist.map b.key)

theorem inLoop_resume {runs : List VmRun} {remaining : List Text} {didClean : Bool} {now : ℤ}
    (hleft : remaining = left b runs)
    (hbudget : runs.length + remaining.length + spareRuns didClean ≤ b.jobs.length + 1)
    (hcomplete : ∀ r ∈ runs, r.pulled.map Prod.fst = r.passed) :
    InLoop b runs (resume remaining didClean now) := by
  unfold resume
  split_ifs with hempty
  · exact hleft.symm.trans (List.isEmpty_iff.mp hempty)
  · exact ⟨hleft, mt List.isEmpty_iff.mpr hempty, hbudget, hcomplete⟩

theorem Reading.read {todo remaining next : List Text} {verdicts : TestResultsMap} {now : ℤ}
    {pulled : List (Text × Option TestResult)} {st : Text} (s : TestResultsStore)
    (h : Reading b (st :: todo) remaining next verdicts now pulled)
    (hnodup : (remaining.map b.key).Nodup) :
    Reading b todo remaining (if (pulledResult b s st now).status = .inprogress then next ++ [st] else next)
      (verdicts.insert (b.key st) (pulledResult b s st now)) now
      (pulled ++ [(st, diskResult b s (b.key st))]) := by
  have hread : pulledResult b s st now = (diskResult b s (b.key st)).getD ⟨.inprogress, now, 0⟩ := rfl
  have hmem : st ∈ remaining := by simp [← h.order]
  refine ⟨by simp [← h.order], ?_, ?_, ?_⟩
  · simp only [hread, isOpen_iff, h.next]
    split_ifs with hopen <;> simp [hopen]
  · intro p hp
    rw [TextMap.getElem?_insert]
    rcases List.mem_append.mp hp with hp | hp
    · have hne : b.key st ≠ b.key p.1 := by
        rw [← h.order, List.map_append, List.nodup_append] at hnodup
        exact (hnodup.2.2 _ (List.mem_map.mpr ⟨p.1, List.mem_map.mpr ⟨p, hp, rfl⟩, rfl⟩) _
          List.mem_cons_self).symm
      rw [if_neg hne, h.recorded p hp]
    · obtain rfl := List.mem_singleton.mp hp
      rw [if_pos rfl, hread]
  · intro k hk
    rcases Std.ExtTreeMap.mem_insert.mp hk with heq | hk
    · exact Std.LawfulEqCmp.eq_of_compare heq ▸ List.mem_map.mpr ⟨st, hmem, rfl⟩
    · exact h.keys k hk

theorem Reading.sublist {todo remaining next : List Text} {verdicts : TestResultsMap} {now : ℤ}
    {pulled : List (Text × Option TestResult)} (h : Reading b todo remaining next verdicts now pulled) :
    next.Sublist remaining := by
  rw [h.next, ← h.order]
  exact (List.filter_sublist.map _).trans (List.sublist_append_left _ _)

/-- After a run the loop is done, goes on with what is left, or gives up. -/
theorem inLoop_recorded {rs : List VmRun} {remaining next : List Text} {verdicts : TestResultsMap}
    {didClean : Bool} {now : ℤ} {pulled : List (Text × Option TestResult)} (hkeys : b.keys.Nodup)
    (hloop : Looping b rs remaining (spareRuns didClean))
    (hread : Reading b [] remaining next verdicts now pulled) :
    InLoop b (⟨remaining, pulled⟩ :: rs) (afterVerdicts remaining next didClean now) := by
  have horder : pulled.map Prod.fst = remaining := by simpa using hread.order
  have hleft : next = left b (⟨remaining, pulled⟩ :: rs) := by
    rw [hread.next, left_recorded hkeys hloop.left horder]
  have hsub := hread.sublist
  have hbudget := hloop.budget
  have hcomplete : ∀ r ∈ (⟨remaining, pulled⟩ : VmRun) :: rs, r.pulled.map Prod.fst = r.passed :=
    List.forall_mem_cons.mpr ⟨horder, hloop.complete⟩
  unfold afterVerdicts
  split_ifs with hlen hclean
  · trivial
  · refine ⟨(hsub.eq_of_length hlen) ▸ hleft, hloop.ne_nil, ?_, hcomplete⟩
    have hspare : spareRuns didClean = 1 := by simp [spareRuns, hclean]
    rw [List.length_cons]
    omega
  · have hle := hsub.length_le
    refine inLoop_resume hleft ?_ hcomplete
    rw [List.length_cons]
    omega

theorem InLoop.moves {s s' : TestResultsStore} {st st' : Stage} {e : Event} {runs : List VmRun}
    (h : InLoop b runs st) (hkeys : b.keys.Nodup) (hm : Moves b s st e s' st') :
    InLoop b (noteRuns b s st runs) st' := by
  cases hm with
  | fatal | setupFailed | superviseFailed | pullFailed | cleanFailed | fail | lookupInprogress
  | lookupOther | failWrite | failed => trivial
  | start | mark | marked => exact h
  | setup outcome hsetup hok =>
    cases hsetup with
    | checkout | checkoutNoSync | syncKtest | buildSupervisor => exact h
    | prepare now =>
      obtain rfl : runs = [] := h
      refine ⟨(left_nil b).symm, subtests_ne_nil b, ?_, by simp [noteRuns]⟩
      simp [noteRuns, spareRuns, Batch.subtests]
  | supervised remaining didClean now code => exact ⟨runs, rfl, h⟩
  | pulled remaining didClean now dirs =>
    obtain ⟨rs, rfl, hloop⟩ := h
    exact ⟨[], rs, rfl, hloop, by simp, rfl, by simp, by simp⟩
  | read st todo remaining next verdicts didClean now =>
    obtain ⟨pulled, rs, rfl, hloop, hread⟩ := h
    exact ⟨_, rs, rfl, hloop, hread.read s (hloop.nodup_keys hkeys)⟩
  | recorded remaining next verdicts didClean now io =>
    obtain ⟨pulled, rs, rfl, hloop, hread⟩ := h
    exact inLoop_recorded hkeys hloop hread
  | cleaned remaining now code => exact inLoop_resume h.left h.budget h.complete
  | succeed now => exact h

/-- Every run was given what its predecessors had left, and that was read back, unless it is
the latest run and the reading has not ended. -/
structure RunsInOrder (b : Batch) (runs : List VmRun) : Prop where
  passed : ∀ r earlier, (r :: earlier) <:+ runs → r.passed = left b earlier
  pulled : ∀ r ∈ runs, ∀ p ∈ r.pulled, p.1 ∈ r.passed
  complete : ∀ r ∈ runs.tail, r.pulled.map Prod.fst = r.passed

theorem RunsInOrder.cons {rs : List VmRun} {r : VmRun} {remaining : List Text} {spare : ℕ}
    (h : RunsInOrder b rs) (hloop : Looping b rs remaining spare) (hpassed : r.passed = remaining)
    (hpulled : ∀ p ∈ r.pulled, p.1 ∈ r.passed) : RunsInOrder b (r :: rs) := by
  constructor
  · intro r' earlier hsuffix
    rcases List.suffix_cons_iff.mp hsuffix with heq | hsuffix
    · obtain ⟨rfl, rfl⟩ := List.cons.inj heq
      exact hpassed.trans hloop.left
    · exact h.passed r' earlier hsuffix
  · exact List.forall_mem_cons.mpr ⟨hpulled, h.pulled⟩
  · exact hloop.complete

theorem RunsInOrder.tail {rs : List VmRun} {r : VmRun} (h : RunsInOrder b (r :: rs)) :
    RunsInOrder b rs := by
  constructor
  · exact fun r' earlier hsuffix => h.passed r' earlier (List.suffix_cons_iff.mpr (.inr hsuffix))
  · exact fun r' hr' => h.pulled r' (List.mem_cons_of_mem r hr')
  · exact fun r' hr' => h.complete r' (List.mem_of_mem_tail hr')

theorem RunsInOrder.not_again {runs earlier : List VmRun} {r r' : VmRun} {st : Text}
    (h : RunsInOrder b runs) (hsuffix : (r :: earlier) <:+ runs) (hr' : r' ∈ earlier)
    (hst : r'.Settles st) : st ∉ r.passed := by
  intro hpassed
  rw [h.passed r earlier hsuffix] at hpassed
  have hpending := (List.mem_filter.mp hpassed).2
  rw [pending_eq_false hr' hst] at hpending
  simp at hpending

theorem RunsInOrder.note {s : TestResultsStore} {st : Stage} {runs : List VmRun}
    (h : RunsInOrder b runs) (hloop : InLoop b runs st) : RunsInOrder b (noteRuns b s st runs) := by
  cases st with
  | supervise remaining didClean now => exact h.cons hloop rfl (by simp)
  | collecting todo remaining next verdicts didClean now =>
    cases todo with
    | nil => exact h
    | cons st todo =>
      obtain ⟨pulled, rs, rfl, hlooping, hread⟩ := hloop
      apply h.tail.cons hlooping rfl
      intro p hp
      rcases List.mem_append.mp hp with hp | hp
      · exact h.pulled _ List.mem_cons_self p hp
      · obtain rfl := List.mem_singleton.mp hp
        simp [← hread.order]
  | _ => exact h

def recordedRuns : Stage → List VmRun → List VmRun
  | .collecting _ _ _ _ _ _, runs => runs.tail
  | _, runs => runs

def Stands (b : Batch) (s : TestResultsStore) (stage : Stage) (runs : List VmRun) : Prop :=
  ∀ r ∈ runs, ∀ st res, (st, some res) ∈ r.pulled → res.status ≠ .inprogress →
    (s.results b.commit)[b.key st]? = some res ∧ b.key st ∉ unsettled b stage

theorem Stands.mono {s s' : TestResultsStore} {stage stage' : Stage} {runs : List VmRun}
    (h : Stands b s stage runs)
    (hres : ∀ k : Text, k ∈ unsettled b stage ∨ (s'.results b.commit)[k]? = (s.results b.commit)[k]?)
    (hsub : unsettled b stage' ⊆ unsettled b stage) : Stands b s' stage' runs := by
  intro r hr st res hmem hstatus
  obtain ⟨hstore, hnot⟩ := h r hr st res hmem hstatus
  refine ⟨?_, fun hk => hnot (hsub hk)⟩
  rw [(hres (b.key st)).resolve_left hnot, hstore]

theorem Stands.cons_nil {s : TestResultsStore} {stage : Stage} {runs : List VmRun}
    (h : Stands b s stage runs) (passed : List Text) : Stands b s stage (⟨passed, []⟩ :: runs) := by
  intro r hr
  cases hr with
  | head => simp
  | tail _ hr => exact h r hr

theorem stands_recorded {s : TestResultsStore} {rs : List VmRun} {remaining next : List Text}
    {verdicts : TestResultsMap} {didClean : Bool} {now : ℤ}
    {pulled : List (Text × Option TestResult)} {io : CapnpWrite} (hkeys : b.keys.Nodup)
    (hloop : Looping b rs remaining (spareRuns didClean))
    (hread : Reading b [] remaining next verdicts now pulled) {st : Text} {res : TestResult}
    (hmem : (st, some res) ∈ pulled) (hstatus : res.status ≠ .inprogress) :
    ((s.update io b.commit verdicts).results b.commit)[b.key st]? = some res ∧
      b.key st ∉ next.map b.key := by
  refine ⟨TestResultsStore.getElem?_results_update_of_some (hread.recorded _ hmem), fun hk => ?_⟩
  have horder : pulled.map Prod.fst = remaining := by simpa using hread.order
  obtain ⟨st', hst', hkey⟩ := List.mem_map.mp hk
  rw [hread.next] at hst'
  obtain ⟨p, hp, rfl⟩ := List.mem_map.mp hst'
  obtain ⟨hp, hopen⟩ := List.mem_filter.mp hp
  have hnodup : (pulled.map (fun p => b.key p.1)).Nodup := by
    have h := hloop.nodup_keys hkeys
    rwa [← horder, List.map_map] at h
  obtain rfl := List.inj_on_of_nodup_map hnodup hp hmem hkey
  exact hstatus (by simpa [isOpen] using hopen)

theorem recordedRuns_resume (remaining : List Text) (didClean : Bool) (now : ℤ) (runs : List VmRun) :
    recordedRuns (resume remaining didClean now) runs = runs := by
  unfold resume
  split_ifs <;> rfl

theorem recordedRuns_afterVerdicts (remaining next : List Text) (didClean : Bool) (now : ℤ)
    (runs : List VmRun) : recordedRuns (afterVerdicts remaining next didClean now) runs = runs := by
  unfold afterVerdicts
  split_ifs
  · rfl
  · rfl
  · exact recordedRuns_resume next didClean now runs

theorem unsettled_resume_subset (remaining : List Text) (didClean : Bool) (now : ℤ) :
    unsettled b (resume remaining didClean now) ⊆ remaining.map b.key := by
  unfold resume
  split_ifs
  · simp [unsettled]
  · exact fun _ hk => hk

theorem Stands.moves {s s' : TestResultsStore} {st st' : Stage} {e : Event} {runs : List VmRun}
    (h : Stands b s st (recordedRuns st runs)) (hloop : InLoop b runs st) (hkeys : b.keys.Nodup)
    (hm : Moves b s st e s' st') : Stands b s' st' (recordedRuns st' (noteRuns b s st runs)) := by
  cases hm with
  | fatal | start | mark | marked =>
    obtain rfl : runs = [] := hloop
    simp [Stands, noteRuns, recordedRuns]
  | setup outcome hsetup hok =>
    cases hsetup <;>
    · obtain rfl : runs = [] := hloop
      simp [Stands, noteRuns, recordedRuns]
  | setupFailed outcome e hsetup hfail =>
    cases hsetup <;>
    · obtain rfl : runs = [] := hloop
      simp [Stands, noteRuns, recordedRuns]
  | supervised remaining didClean now code =>
    exact (h.mono (fun _ => .inr rfl) (fun _ hk => hk)).cons_nil remaining
  | superviseFailed remaining didClean now msg e =>
    exact (h.mono (fun _ => .inr rfl) (by simp [unsettled])).cons_nil remaining
  | pulled remaining didClean now dirs =>
    obtain ⟨rs, rfl, -⟩ := hloop
    have htail : Stands b s (.pulling remaining didClean now) rs :=
      fun r hr => h r (List.mem_cons_of_mem _ hr)
    exact htail.mono (fun _ => .inr rfl) (fun _ hk => hk)
  | read st todo remaining next verdicts didClean now =>
    obtain ⟨pulled, rs, rfl, -, -⟩ := hloop
    exact h.mono (fun _ => .inr rfl) (fun _ hk => hk)
  | recorded remaining next verdicts didClean now io =>
    obtain ⟨pulled, rs, rfl, hlooping, hread⟩ := hloop
    have hsub : next.Sublist remaining := hread.sublist
    rw [recordedRuns_afterVerdicts]
    intro r hr
    cases hr with
    | head =>
      intro st res hmem hstatus
      obtain ⟨hstore, hnot⟩ := stands_recorded hkeys hlooping hread hmem hstatus
      exact ⟨hstore, fun hk => hnot (mem_next_of_mem_unsettled hsub hk)⟩
    | tail _ hr =>
      refine h.mono (fun k => ?_) (fun k hk => ?_) r hr
      · by_cases hk : k ∈ verdicts
        · exact .inl (hread.keys k hk)
        · exact .inr (TestResultsStore.getElem?_results_update (fun hmem => hk hmem.2))
      · exact (hsub.map b.key).subset (mem_next_of_mem_unsettled hsub hk)
  | pullFailed | cleanFailed | succeed | fail => exact h.mono (fun _ => .inr rfl) (by simp [unsettled])
  | cleaned remaining now code =>
    rw [recordedRuns_resume]
    exact h.mono (fun _ => .inr rfl) (unsettled_resume_subset remaining true now)
  | lookupInprogress j todo updates now e hlookup =>
    intro r hr st res hmem hstatus
    obtain ⟨hstore, hnot⟩ := h r hr st res hmem hstatus
    refine ⟨hstore, fun hk => ?_⟩
    rcases List.mem_cons.mp hk with heq | hk
    · rw [← heq, TestResultsStore.lookup_eq_results, hstore] at hlookup
      exact hstatus (Option.some.inj hlookup)
    · exact hnot hk
  | lookupOther j todo updates now e hlookup => exact h.mono (fun _ => .inr rfl) (fun _ hk => hk)
  | failWrite j todo updates now e w =>
    refine h.mono (fun _ => .inr rfl) (fun k hk => ?_)
    rcases Std.ExtTreeMap.mem_insert.mp (Std.ExtTreeMap.mem_keys.mp hk) with heq | hk
    · exact Std.LawfulEqCmp.eq_of_compare heq ▸ List.mem_cons_self
    · exact List.mem_cons_of_mem _ (Std.ExtTreeMap.mem_keys.mpr hk)
  | failed updates now e io =>
    refine h.mono (fun k => ?_) (by simp [unsettled])
    by_cases hk : k ∈ updates
    · exact .inl (Std.ExtTreeMap.mem_keys.mpr hk)
    · exact .inr (TestResultsStore.getElem?_results_update (fun hmem => hk hmem.2))

theorem recordedRuns_subset (stage : Stage) (runs : List VmRun) : recordedRuns stage runs ⊆ runs := by
  cases stage with
  | collecting => exact List.tail_subset runs
  | _ => exact fun _ h => h

theorem RunsInOrder.mem_subtests {runs : List VmRun} (h : RunsInOrder b runs) {r : VmRun}
    (hr : r ∈ runs) {p : Text × Option TestResult} (hp : p ∈ r.pulled) : p.1 ∈ b.subtests := by
  obtain ⟨before, earlier, rfl⟩ := List.append_of_mem hr
  have hmem := h.pulled r hr p hp
  rw [h.passed r earlier (List.suffix_append before (r :: earlier))] at hmem
  exact (List.mem_filter.mp hmem).1

/-- What holds of a batch and its record, wherever it is. -/
structure Chronicle (b : Batch) (x : Traced) : Prop where
  loop : InLoop b x.runs x.stage
  count : x.runs.length ≤ b.jobs.length + 1
  order : RunsInOrder b x.runs
  stands : Stands b x.store x.stage (recordedRuns x.stage x.runs)

theorem chronicle_start (b : Batch) (s : TestResultsStore) : Chronicle b (.start s) :=
  ⟨rfl, by simp [Traced.start],
    ⟨by simp [Traced.start], by simp [Traced.start], by simp [Traced.start]⟩,
    by simp [Stands, Traced.start, recordedRuns]⟩

theorem length_noteRuns {s : TestResultsStore} {stage : Stage} {runs : List VmRun}
    (h : InLoop b runs stage) (hcount : runs.length ≤ b.jobs.length + 1) :
    (noteRuns b s stage runs).length ≤ b.jobs.length + 1 := by
  cases stage with
  | supervise remaining didClean now =>
    have hpos := List.length_pos_iff.mpr h.ne_nil
    have hbudget := h.budget
    simp only [noteRuns, List.length_cons]
    omega
  | collecting todo remaining next verdicts didClean now =>
    cases todo with
    | nil => exact hcount
    | cons st todo =>
      obtain ⟨pulled, rs, rfl, -⟩ := h
      exact hcount
  | _ => exact hcount

theorem Chronicle.step {x x' : Traced} {e : AloneEvent} (h : Chronicle b x) (hkeys : b.keys.Nodup)
    (hstep : tracedStep b x e = some x') : Chronicle b x' := by
  obtain ⟨e', -, hm, -, hruns⟩ | ⟨s, -, hs, rfl⟩ := tracedStep_cases hstep
  · constructor
    · exact hruns ▸ h.loop.moves hkeys hm
    · exact hruns ▸ length_noteRuns h.loop h.count
    · exact hruns ▸ h.order.note h.loop
    · exact hruns ▸ h.stands.moves h.loop hkeys hm
  · refine ⟨h.loop, h.count, h.order, ?_⟩
    intro r hr st res hmem hstatus
    obtain ⟨hstore, hnot⟩ := h.stands r hr st res hmem hstatus
    have hst := h.order.mem_subtests (recordedRuns_subset x.stage x.runs hr) hmem
    exact ⟨(hs _ (key_mem_keys hst)).1.trans hstore, hnot⟩

theorem Chronicle.run {s : TestResultsStore} {es : List AloneEvent} {x : Traced}
    (hkeys : b.keys.Nodup) (hrun : run (tracedStep b) (.start s) es = some x) : Chronicle b x :=
  run_invariant_all (fun _ _ _ h hstep => h.step hkeys hstep) (chronicle_start b s) hrun

def pairBatch (repoUrl : Text) : Batch :=
  let params (subtest : Text) : JobParams := ⟨"linux".toList, "c0ffee".toList, [], [], "pair.ktest".toList,
    subtest, repoUrl, [], "/out".toList⟩
  ⟨⟨0, params "a".toList⟩, [⟨1, params "b".toList⟩]⟩

def pairSetup : List AloneEvent :=
  [.own (.start 0), .own (.mark (.written 0)), .own (.mark (.written 0)),
    .own (.update ⟨[], .written⟩), .own (.command (.exited (some 0))),
    .own (.command (.exited (some 0))), .own (.command (.exited (some 0)))]

def pairRun (files : List (Text × Text)) (n : ℕ) : List AloneEvent :=
  [.own (.command (.exited (some 1))), .own (.pull (fun key => (files.lookup key).map
    (fun text => (∅ : ResultDir).insert "status".toList ⟨some text, 0⟩)) (.exited (some 0)))] ++
    List.replicate n (.own .read) ++ [.own (.update ⟨[], .written⟩)]

def pairEvents : List AloneEvent :=
  pairSetup ++ pairRun [("pair.a".toList, "IN PROGRESS".toList), ("pair.b".toList, "PASSED".toList)] 2 ++
    pairRun [("pair.a".toList, "PASSED".toList)] 1 ++ [.own (.teardown 0)]

end BatchRun
end KtestCi
