import KtestCi.BatchTrace

/-!
# What a failed batch leaves behind

When a batch returns an error, a subtest has the status that one of its runs gave it. Any
other subtest that the batch had marked has failed to run. A batch that fails before it
marks anything leaves the statuses as they were, except that its error path also takes a
result that was in progress before for one of its own.
-/

namespace KtestCi
namespace BatchRun

open EventRuns

variable (b : Batch)

/-- The batch has marked its subtests and is on its way through the loop. -/
def afterMarking : Stage → Bool
  | .checkout _ | .syncKtest _ | .buildSupervisor _ | .prepare _ | .supervise _ _ _ | .pulling _ _ _
  | .collecting _ _ _ _ _ _ | .cleaning _ _ => true
  | _ => false

/-- A result that the batch will settle on an error exactly if it is in progress. -/
structure Waits (base : Option TestStatus) (s : TestResultsStore) (k : Text) (stage : Stage) : Prop where
  lookup : s.lookup b.commit k = base
  is_owed : base = some .inprogress → k ∈ owed b stage
  kept : base ≠ some .inprogress → k ∉ unsettled b stage

/-- Where a subtest without a status of its own stands, from the status it is to keep if the
error path does not find it in progress. -/
def Awaits (base : Option TestStatus) (s : TestResultsStore) (k : Text) : Stage → Prop
  | .start | .marking _ _ _ => s.lookup b.commit k = base
  | .teardown none | .returned none => True
  | .returned (some _) =>
    s.lookup b.commit k = if base = some .inprogress then some .failedToRun else base
  | stage => Waits b base s k stage

/-- The status a subtest has as long as no run has given it one. -/
def baseStatus (initial : TestResultsStore) (x : Traced) (k : Text) : Option TestStatus :=
  if x.marked then some .inprogress else initial.lookup b.commit k

structure Leaves (initial : TestResultsStore) (x : Traced) : Prop where
  marked : afterMarking x.stage = true → x.marked = true
  awaits : ∀ st ∈ b.subtests, pending x.runs st = true →
    Awaits b (baseStatus b initial x (b.key st)) x.store (b.key st) x.stage

variable {b}

theorem pending_noteRuns {s : TestResultsStore} {stage : Stage} {runs : List VmRun} {st : Text}
    (h : pending (noteRuns b s stage runs) st = true) : pending runs st = true := by
  cases stage with
  | collecting todo remaining next verdicts didClean now =>
    cases todo with
    | nil => exact h
    | cons st' todo =>
      cases runs with
      | nil => exact h
      | cons r rs =>
        simp only [noteRuns, noteRead, pending_cons, List.all_append, Bool.and_eq_true] at h ⊢
        exact ⟨h.1.1, h.2⟩
  | _ => exact h

theorem waits_of_inprogress {s : TestResultsStore} {k : Text} {stage : Stage}
    (hlookup : s.lookup b.commit k = some .inprogress) (howed : k ∈ owed b stage) :
    Waits b (some .inprogress) s k stage :=
  ⟨hlookup, fun _ => howed, fun h => absurd rfl h⟩

theorem Awaits.moves {base : Option TestStatus} {s s' : TestResultsStore} {st st' : Stage} {e : Event}
    {k : Text} (h : Awaits b base s k st) (hm : Moves b s st e s' st') (hvalid : Valid b st)
    (hb : b.Homogeneous) (hk : k ∈ b.keys) (hbase : afterMarking st = true → base = some .inprogress)
    (he : ∀ io, e ≠ .update io) : Awaits b base s' k st' := by
  have howed : k ∈ owed b st → s.lookup b.commit k = some .inprogress → k ∈ owed b st' :=
    hm.mem_owed hvalid hb he
  cases hm with
  | marked | recorded | failed => exact absurd rfl (he _)
  | fatal now e hurl => exact ⟨h, fun _ => hk, by simp [unsettled]⟩
  | start now hurl => exact h
  | mark st todo now marks w => exact h
  | setup outcome hsetup hok =>
    cases hsetup <;>
    · obtain rfl := hbase rfl
      exact waits_of_inprogress h.lookup (howed (h.is_owed rfl) h.lookup)
  | setupFailed outcome e hsetup hfail =>
    cases hsetup <;>
    · obtain rfl := hbase rfl
      exact waits_of_inprogress h.lookup (howed (h.is_owed rfl) h.lookup)
  | supervised | superviseFailed | pulled | pullFailed | read | cleanFailed =>
    obtain rfl := hbase rfl
    exact waits_of_inprogress h.lookup (howed (h.is_owed rfl) h.lookup)
  | cleaned remaining now code =>
    obtain rfl := hbase rfl
    have hsupervise : resume remaining true now = .supervise remaining true now := by
      simp [resume, hvalid.1]
    rw [hsupervise] at howed ⊢
    exact waits_of_inprogress h.lookup (howed (h.is_owed rfl) h.lookup)
  | succeed now => trivial
  | fail now e => exact ⟨h.lookup, fun hin => howed (h.is_owed hin) (h.lookup.trans hin), by simp [unsettled]⟩
  | lookupInprogress j todo updates now e hlookup =>
    refine ⟨h.lookup, fun hin => howed (h.is_owed hin) (h.lookup.trans hin), fun hout hmem => ?_⟩
    rcases List.mem_cons.mp hmem with rfl | hmem
    · exact hout (h.lookup.symm.trans hlookup)
    · exact h.kept hout hmem
  | lookupOther j todo updates now e hlookup =>
    exact ⟨h.lookup, fun hin => howed (h.is_owed hin) (h.lookup.trans hin), h.kept⟩
  | failWrite j todo updates now e w =>
    refine ⟨h.lookup, fun hin => howed (h.is_owed hin) (h.lookup.trans hin), fun hout hmem => ?_⟩
    apply h.kept hout
    rcases Std.ExtTreeMap.mem_insert.mp (Std.ExtTreeMap.mem_keys.mp hmem) with heq | hmem
    · exact Std.LawfulEqCmp.eq_of_compare heq ▸ List.mem_cons_self
    · exact List.mem_cons_of_mem _ (Std.ExtTreeMap.mem_keys.mpr hmem)

theorem awaits_recorded {s : TestResultsStore} {rs : List VmRun} {remaining next : List Text}
    {verdicts : TestResultsMap} {didClean : Bool} {now : ℤ}
    {pulled : List (Text × Option TestResult)} {io : CapnpWrite}
    (hloop : Looping b rs remaining (spareRuns didClean))
    (hread : Reading b [] remaining next verdicts now pulled) {st : Text} (hst : st ∈ b.subtests)
    (hpending : pending (⟨remaining, pulled⟩ :: rs) st = true) :
    Awaits b (some .inprogress) (s.update io b.commit verdicts) (b.key st)
      (afterVerdicts remaining next didClean now) := by
  have horder : pulled.map Prod.fst = remaining := by simpa using hread.order
  rw [pending_cons, Bool.and_eq_true, List.all_eq_true] at hpending
  have hmem : st ∈ remaining := by
    rw [hloop.left]
    exact List.mem_filter.mpr ⟨hst, hpending.2⟩
  rw [← horder] at hmem
  obtain ⟨p, hp, rfl⟩ := List.mem_map.mp hmem
  have hopen : isOpen p.2 = true := by simpa using hpending.1 p hp
  have hlookup : (s.update io b.commit verdicts).lookup b.commit (b.key p.1) = some .inprogress := by
    rw [TestResultsStore.lookup_update_of_some (hread.recorded p hp), (isOpen_iff p.2 now).mpr hopen]
  have hnext : p.1 ∈ next := by
    rw [hread.next]
    exact List.mem_map.mpr ⟨p, List.mem_filter.mpr ⟨hp, hopen⟩, rfl⟩
  have hremaining : remaining ⊆ b.subtests := by
    rw [hloop.left]
    exact List.filter_sublist.subset
  have howed : b.key p.1 ∈ owed b (afterVerdicts remaining next didClean now) :=
    mem_owed_afterVerdicts hremaining hread.sublist.subset (List.mem_map.mpr ⟨p.1, hnext, rfl⟩)
  unfold afterVerdicts at howed ⊢
  split_ifs at howed ⊢ with hlen hclean
  · exact waits_of_inprogress hlookup howed
  · exact waits_of_inprogress hlookup howed
  · have hsupervise : resume next didClean now = .supervise next didClean now := by
      simp [resume, List.ne_nil_of_mem hnext]
    rw [hsupervise] at howed ⊢
    exact waits_of_inprogress hlookup howed

theorem awaits_marked {s : TestResultsStore} {now : ℤ} {marks : TestResultsMap} {io : CapnpWrite}
    (hvalid : Valid b (.marking [] now marks)) {st : Text} (hst : st ∈ b.subtests) :
    Awaits b (some .inprogress) (s.update io b.commit marks) (b.key st) (.checkout now) := by
  obtain ⟨-, hall, hmarks⟩ := hvalid
  have hmem : b.key st ∈ marks := (hall st hst).resolve_left (by simp)
  obtain ⟨r, hr⟩ := TextMap.mem_iff_exists.mp hmem
  refine waits_of_inprogress ?_ (key_mem_keys hst)
  rw [TestResultsStore.lookup_update_of_some hr, (hmarks _ r hr).1]

theorem awaits_failed {base : Option TestStatus} {s : TestResultsStore} {updates : TestResultsMap}
    {now : ℤ} {e : TaskError} {io : CapnpWrite} {k : Text} (h : Awaits b base s k (.failing [] updates now e))
    (hvalid : Valid b (.failing [] updates now e)) :
    Awaits b base (s.update io b.commit updates) k (.returned (some e)) := by
  by_cases hin : base = some .inprogress
  · have hmem : k ∈ updates := by simpa [owed] using h.is_owed hin
    obtain ⟨r, hr⟩ := TextMap.mem_iff_exists.mp hmem
    have hlookup : (s.update io b.commit updates).lookup b.commit k = some .failedToRun := by
      rw [TestResultsStore.lookup_update_of_some hr, (hvalid.2 k r hr).1]
    simpa [Awaits, hin] using hlookup
  · have hnot : k ∉ updates := by simpa [unsettled] using h.kept hin
    have hlookup : (s.update io b.commit updates).lookup b.commit k = base := by
      rw [TestResultsStore.lookup_update_of_ne (fun hmem => hnot hmem.2), h.lookup]
    simpa [Awaits, hin] using hlookup

theorem marked_of_afterMarking {s s' : TestResultsStore} {st st' : Stage} {e : Event} {marked : Bool}
    (hmarked : afterMarking st = true → marked = true) (hm : Moves b s st e s' st')
    (hafter : afterMarking st' = true) : noteMarked st marked = true := by
  cases hm with
  | marked => rfl
  | setup outcome hsetup hok => cases hsetup <;> exact hmarked rfl
  | supervised | pulled | read | recorded | cleaned => exact hmarked rfl
  | setupFailed | fatal | start | mark | superviseFailed | pullFailed | cleanFailed | succeed | fail
  | lookupInprogress | lookupOther | failWrite | failed => simp [afterMarking] at hafter

/-- The state of a batch, together with what it will leave behind. -/
structure Accounted (b : Batch) (initial : TestResultsStore) (x : Traced) : Prop where
  chronicle : Chronicle b x
  valid : Valid b x.stage
  leaves : Leaves b initial x

theorem accounted_start (b : Batch) (s : TestResultsStore) : Accounted b s (.start s) := by
  refine ⟨chronicle_start b s, trivial, by simp [Traced.start, afterMarking], ?_⟩
  intro st hst _
  simp [Traced.start, Awaits, baseStatus]

theorem noteMarked_of_quiet {s s' : TestResultsStore} {st st' : Stage} {e : Event}
    (hm : Moves b s st e s' st') (he : ∀ io, e ≠ .update io) (marked : Bool) :
    noteMarked st marked = marked := by
  cases hm with
  | marked => exact absurd rfl (he _)
  | setup outcome hsetup hok => cases hsetup <;> rfl
  | setupFailed outcome e hsetup hfail => cases hsetup <;> rfl
  | _ => rfl

theorem Leaves.own {initial s s' : TestResultsStore} {stage stage' : Stage} {marked : Bool}
    {runs : List VmRun} {e : Event} (h : Leaves b initial ⟨s, stage, marked, runs⟩)
    (hloop : InLoop b runs stage) (hvalid : Valid b stage) (hb : b.Homogeneous)
    (hm : Moves b s stage e s' stage') :
    Leaves b initial ⟨s', stage', noteMarked stage marked, noteRuns b s stage runs⟩ := by
  refine ⟨fun hafter => marked_of_afterMarking h.marked hm hafter, fun st hst hpending => ?_⟩
  have hold := h.awaits st hst (pending_noteRuns hpending)
  by_cases he : ∀ io, e ≠ .update io
  · simp only [noteMarked_of_quiet hm he]
    refine hold.moves hm hvalid hb (key_mem_keys hst) (fun hafter => ?_) he
    obtain rfl : marked = true := h.marked hafter
    rfl
  · cases hm with
    | marked now marks io => exact awaits_marked hvalid hst
    | recorded remaining next verdicts didClean now io =>
      obtain rfl : marked = true := h.marked rfl
      obtain ⟨pulled, rs, rfl, hlooping, hread⟩ := hloop
      exact awaits_recorded hlooping hread hst hpending
    | failed updates now e io => exact awaits_failed hold hvalid
    | _ => exact absurd (by simp) he

theorem Unaffected.awaits {base : Option TestStatus} {s s' : TestResultsStore} {k : Text} {stage : Stage}
    (hs : Unaffected b s s') (hk : k ∈ b.keys) (h : Awaits b base s k stage) : Awaits b base s' k stage := by
  have hlookup := hs.lookup hk
  cases stage with
  | start | marking => exact hlookup.trans h
  | teardown result =>
    cases result with
    | none => trivial
    | some e => exact ⟨hlookup.trans h.lookup, h.is_owed, h.kept⟩
  | returned result =>
    cases result with
    | none => trivial
    | some e => exact hlookup.trans h
  | _ => exact ⟨hlookup.trans h.lookup, h.is_owed, h.kept⟩

theorem Accounted.step {initial : TestResultsStore} {x x' : Traced} {e : AloneEvent}
    (h : Accounted b initial x) (hb : b.Homogeneous) (hkeys : b.keys.Nodup)
    (hstep : tracedStep b x e = some x') : Accounted b initial x' := by
  have hchronicle := h.chronicle.step hkeys hstep
  have hvalid := h.valid.traced hb hstep
  obtain ⟨s, stage, marked, runs⟩ := x
  obtain ⟨e', -, hm, hmarked, hruns⟩ | ⟨s', -, hs, rfl⟩ := tracedStep_cases hstep
  · obtain ⟨s', stage', marked', runs'⟩ := x'
    obtain rfl : marked' = _ := hmarked
    obtain rfl : runs' = _ := hruns
    exact ⟨hchronicle, hvalid, h.leaves.own h.chronicle.loop h.valid hb hm⟩
  · refine ⟨hchronicle, hvalid, h.leaves.marked, fun st hst hpending => ?_⟩
    exact hs.awaits (key_mem_keys hst) (h.leaves.awaits st hst hpending)

theorem Accounted.run {s : TestResultsStore} {es : List AloneEvent} {x : Traced} (hb : b.Homogeneous)
    (hkeys : b.keys.Nodup) (hrun : run (tracedStep b) (.start s) es = some x) : Accounted b s x :=
  run_invariant_all (fun _ _ _ h hstep => h.step hb hkeys hstep) (accounted_start b s) hrun

theorem result_eq_of_run {s : TestResultsStore} {es : List AloneEvent} {x : Traced} {c k : Text}
    (hb : b.Homogeneous) (hrun : run (tracedStep b) (.start s) es = some x)
    (hk : ¬ (b.commit = c ∧ k ∈ b.keys))
    (hother : ∀ t, AloneEvent.other t ∈ es → (t.results c)[k]? = (s.results c)[k]?) :
    (x.store.results c)[k]? = (s.results c)[k]? := by
  have hstep : ∀ y e y', (∀ t, e = AloneEvent.other t → (t.results c)[k]? = (s.results c)[k]?) →
      (Valid b y.stage ∧ (y.store.results c)[k]? = (s.results c)[k]?) → tracedStep b y e = some y' →
      Valid b y'.stage ∧ (y'.store.results c)[k]? = (s.results c)[k]? := by
    intro y e y' hallowed ⟨hvalid, heq⟩ hstep
    refine ⟨hvalid.traced hb hstep, ?_⟩
    obtain ⟨e', -, hm, -, -⟩ | ⟨t, rfl, -, rfl⟩ := tracedStep_cases hstep
    · rw [hm.result_eq hvalid (fun h => hk ⟨h.1, (mem_keys_of_mem_unsettled hvalid hb h.2).1⟩), heq]
    · exact hallowed t rfl
  have hallowed : ∀ e ∈ es, ∀ t, e = AloneEvent.other t → (t.results c)[k]? = (s.results c)[k]? := by
    rintro e he t rfl
    exact hother t he
  have hstart : Valid b (Traced.start s).stage ∧
      ((Traced.start s).store.results c)[k]? = (s.results c)[k]? := ⟨trivial, rfl⟩
  exact (run_invariant hstep hallowed hstart hrun).2

structure ErrorLeaves (b : Batch) (initial : TestResultsStore) (es : List AloneEvent) (x : Traced) :
    Prop where
  frame : ∀ c k : Text, ¬ (b.commit = c ∧ k ∈ b.keys) →
    (∀ t, AloneEvent.other t ∈ es → (t.results c)[k]? = (initial.results c)[k]?) →
    (x.store.results c)[k]? = (initial.results c)[k]?
  verdict : ∀ r ∈ x.runs, ∀ st res, (st, some res) ∈ r.pulled → res.status ≠ .inprogress →
    (x.store.results b.commit)[b.key st]? = some res
  failedToRun : ∀ st ∈ b.subtests, pending x.runs st = true →
    x.marked = true ∨ initial.lookup b.commit (b.key st) = some .inprogress →
    x.store.lookup b.commit (b.key st) = some .failedToRun
  untouched : ∀ st ∈ b.subtests, pending x.runs st = true → x.marked = false →
    initial.lookup b.commit (b.key st) ≠ some .inprogress →
    x.store.lookup b.commit (b.key st) = initial.lookup b.commit (b.key st)

/-- After an error every subtest has the status that a run gave it, or has failed to run if
it was in progress, or has its old status; nothing else has changed. -/
theorem error_leaves (b : Batch) (hb : b.Homogeneous) (hkeys : b.keys.Nodup)
    (initial : TestResultsStore) (es : List AloneEvent) (x : Traced) (e : TaskError)
    (hrun : run (tracedStep b) (.start initial) es = some x) (hstage : x.stage = .returned (some e)) :
    ErrorLeaves b initial es x := by
  have h := Accounted.run hb hkeys hrun
  have hawaits : ∀ st ∈ b.subtests, pending x.runs st = true → x.store.lookup b.commit (b.key st) =
      if baseStatus b initial x (b.key st) = some .inprogress then some .failedToRun
      else baseStatus b initial x (b.key st) := by
    intro st hst hpending
    have hlast := h.leaves.awaits st hst hpending
    rwa [hstage] at hlast
  constructor
  · exact fun c k hk hother => result_eq_of_run hb hrun hk hother
  · intro r hr st res hmem hstatus
    exact (h.chronicle.stands r (by rwa [hstage]) st res hmem hstatus).1
  · intro st hst hpending hinprogress
    have hbase : baseStatus b initial x (b.key st) = some .inprogress := by
      rcases hinprogress with hmarked | hinitial
      · simp [baseStatus, hmarked]
      · simp [baseStatus, hinitial]
    rw [hawaits st hst hpending, if_pos hbase]
  · intro st hst hpending hmarked hinitial
    have hbase : baseStatus b initial x (b.key st) = initial.lookup b.commit (b.key st) := by
      simp [baseStatus, hmarked]
    rw [hawaits st hst hpending, hbase, if_neg hinitial]

/-- The first run settles `b`, and the second one cannot be started. -/
def brokenEvents : List AloneEvent :=
  pairSetup ++ pairRun [("pair.a".toList, "IN PROGRESS".toList), ("pair.b".toList, "PASSED".toList)] 2 ++
    [.own (.command (.notRun "ssh".toList)), .own (.teardown 0), .own .lookup,
      .own (.failWrite (.written 0)), .own .lookup, .own (.update ⟨[], .written⟩)]

theorem error_leaves_pair : ∃ x e, run (tracedStep (pairBatch "git://host/linux".toList))
    (.start ⟨⟨∅, ∅⟩, ∅⟩) brokenEvents = some x ∧ x.stage = .returned (some e) ∧
      ErrorLeaves (pairBatch "git://host/linux".toList) ⟨⟨∅, ∅⟩, ∅⟩ brokenEvents x := by
  obtain ⟨x, e, hrun, hstage⟩ : ∃ x e, run (tracedStep (pairBatch "git://host/linux".toList))
      (.start ⟨⟨∅, ∅⟩, ∅⟩) brokenEvents = some x ∧ x.stage = .returned (some e) := ⟨_, _, rfl, rfl⟩
  exact ⟨x, e, hrun, hstage, error_leaves _ (by decide) (by decide +kernel) _ _ x e hrun hstage⟩

/-- A batch without a repository, whose first subtest is in progress already. -/
def staleStore : TestResultsStore :=
  ⟨⟨∅, ∅⟩, (∅ : TextMap TestResultsMap).insert "c0ffee".toList
    ((∅ : TestResultsMap).insert "pair.a".toList ⟨.inprogress, 0, 0⟩)⟩

def staleEvents : List AloneEvent :=
  [.own (.start 0), .own (.teardown 0), .own .lookup, .own (.failWrite (.written 0)), .own .lookup,
    .own (.update ⟨[], .written⟩)]

/-- The batch marks nothing, and yet the result in progress becomes a failure to run. -/
theorem unmarked_failedToRun : ¬ ∀ (b : Batch), b.Homogeneous → b.keys.Nodup →
    ∀ (initial : TestResultsStore) (es : List AloneEvent) (x : Traced) (e : TaskError),
      run (tracedStep b) (.start initial) es = some x → x.stage = .returned (some e) →
      ∀ st ∈ b.subtests, pending x.runs st = true → x.marked = false →
        x.store.lookup b.commit (b.key st) = initial.lookup b.commit (b.key st) := by
  intro hall
  obtain ⟨x, e, hrun, hstage, hmarked, hruns, hlookup⟩ : ∃ x e,
      run (tracedStep (pairBatch [])) (.start staleStore) staleEvents = some x ∧
      x.stage = .returned (some e) ∧ x.marked = false ∧ x.runs = [] ∧
      x.store.lookup "c0ffee".toList "pair.a".toList = some .failedToRun :=
    ⟨_, _, rfl, rfl, rfl, rfl, by decide +kernel⟩
  have hsame := hall (pairBatch []) (by decide) (by decide +kernel) _ _ x e hrun hstage "a".toList
    (by decide) (by rw [hruns]; rfl) hmarked
  have hkey : (pairBatch []).key "a".toList = "pair.a".toList := by decide +kernel
  rw [hkey] at hsame
  rw [show (pairBatch []).commit = "c0ffee".toList from rfl, hlookup] at hsame
  exact absurd hsame (by decide +kernel)

end BatchRun
end KtestCi
