import KtestCi.ResultsStoreMirror

/-!
# Restarting the results store

The files that `load` reads were written by `results_to_capnp`, so a load never panics and
is determined commit by commit: the map of a commit is what its file decodes to, without
the statuses that are dropped.
-/

namespace KtestCi

/-- Every capnp file is unreadable or was written from a map whose keys name directories. -/
def OutputDir.Produced (o : OutputDir) : Prop :=
  ∀ c file, o.capnp c = some file → file = .unreadable ∨
    ∃ c' cm, ∃ m : TestResultsMap, file = .message (resultsMessage c' cm m) ∧ ∀ k ∈ m, IsEntryName k

def OutputDir.decoded (o : OutputDir) (c : Text) : TestResultsMap :=
  match (o.capnp c).map parseTestResults with
  | some (.ok r) => r.tests
  | _ => ∅

theorem TestResultsMap.published_published (m : TestResultsMap) :
    m.published.published = m.published := by
  apply Std.ExtTreeMap.ext_getElem?
  intro k
  simp only [getElem?_published, Option.map_map]
  rfl

theorem OutputDir.decoded_of_message {o : OutputDir} {c c' : Text} {cm : Option Text}
    {m : TestResultsMap} (h : o.capnp c = some (.message (resultsMessage c' cm m))) :
    o.decoded c = m.published := by
  simp [OutputDir.decoded, h, parseTestResults_resultsMessage]

namespace TestResultsStore

def loadable (o : OutputDir) (c : Text) : Bool := isCommitId c && o.commits.contains c

def kept (clear : Bool) (m : TestResultsMap) : TestResultsMap :=
  TextMap.eraseKeys m (staleKeys clear m)

theorem mem_staleKeys {clear : Bool} {m : TestResultsMap} {k : Text} :
    k ∈ staleKeys clear m ↔ ∃ r, m[k]? = some r ∧ dropStatus clear r.status = true := by
  unfold staleKeys
  simp only [List.mem_map, List.mem_filter, Prod.exists, Std.ExtTreeMap.mem_toList_iff_getElem?_eq_some]
  constructor
  · rintro ⟨k', r, ⟨hr, hd⟩, rfl⟩
    exact ⟨r, hr, hd⟩
  · rintro ⟨r, hr, hd⟩
    exact ⟨k, r, ⟨hr, hd⟩, rfl⟩

theorem getElem?_kept (clear : Bool) (m : TestResultsMap) (k : Text) :
    (kept clear m)[k]? = m[k]?.filter (fun r => !dropStatus clear r.status) := by
  unfold kept
  rw [TextMap.getElem?_eraseKeys]
  cases hk : m[k]? with
  | none => simp
  | some r =>
    by_cases hd : dropStatus clear r.status = true
    · rw [if_pos (mem_staleKeys.mpr ⟨r, hk, hd⟩)]
      simp [Option.filter_some, hd]
    · have hnot : k ∉ staleKeys clear m := by
        intro hm
        obtain ⟨r', hr', hd'⟩ := mem_staleKeys.mp hm
        rw [hk] at hr'
        exact hd (Option.some.inj hr' ▸ hd')
      simp [Option.filter_some, hnot, hd]

theorem staleKeys_kept (clear : Bool) (m : TestResultsMap) : staleKeys clear (kept clear m) = [] := by
  rw [List.eq_nil_iff_forall_not_mem]
  intro k hk
  obtain ⟨r, hr, hd⟩ := mem_staleKeys.mp hk
  rw [getElem?_kept, Option.filter_eq_some_iff] at hr
  simp [hd] at hr

theorem kept_of_staleKeys_eq_nil {clear : Bool} {m : TestResultsMap} (h : staleKeys clear m = []) :
    kept clear m = m := by
  simp [kept, h, TextMap.eraseKeys]

theorem kept_published (clear : Bool) (m : TestResultsMap) :
    kept clear m.published = (kept clear m).published := by
  apply Std.ExtTreeMap.ext_getElem?
  intro k
  simp only [getElem?_kept, TestResultsMap.getElem?_published]
  cases m[k]? with
  | none => rfl
  | some r => by_cases hd : dropStatus clear r.status = true <;> simp [Option.filter_some, hd]

theorem mem_of_mem_kept {clear : Bool} {m : TestResultsMap} {k : Text} (h : k ∈ kept clear m) :
    k ∈ m := by
  rw [Std.ExtTreeMap.mem_iff_isSome_getElem?, getElem?_kept] at h
  rw [Std.ExtTreeMap.mem_iff_isSome_getElem?]
  cases hk : m[k]? with
  | none => simp [hk] at h
  | some r => rfl

theorem loadCommit_settled {io : LoadIo} {clear : Bool} {s s' : TestResultsStore} {commitId : Text}
    (hs : ∀ c k, s.lookup c k ≠ some .inprogress) (h : loadCommit io clear s commitId = some s') :
    ∀ c k, s'.lookup c k ≠ some .inprogress := by
  unfold loadCommit at h
  split_ifs at h
  · split at h
    · exact Option.some.inj h ▸ hs
    · exact Option.some.inj h ▸ hs
    · simp at h
    next parsed _ =>
      obtain rfl := Option.some.inj h
      intro c k
      change (((if (kept clear parsed.tests).isEmpty then s.byCommit
        else s.byCommit.insert commitId (kept clear parsed.tests))[c]?).bind
          (fun m => m[k]?)).map TestResult.status ≠ some .inprogress
      split_ifs
      · exact hs c k
      · rw [TextMap.getElem?_insert]
        split_ifs
        · intro hstatus
          obtain ⟨r, hr, hin⟩ := Option.map_eq_some_iff.mp hstatus
          rw [Option.bind_some, getElem?_kept, Option.filter_eq_some_iff] at hr
          simp [hin, dropStatus] at hr
        · exact hs c k
  · exact Option.some.inj h ▸ hs

theorem lookup_ne_inprogress_of_load {io : LoadIo} {o : OutputDir} {clear : Bool}
    {s : TestResultsStore} (h : load io o clear = some s) (c k : Text) :
    s.lookup c k ≠ some .inprogress := by
  have hfold : ∀ (cs : List Text) (s₀ s₁ : TestResultsStore),
      (∀ c k, s₀.lookup c k ≠ some .inprogress) →
        cs.foldlM (loadCommit io clear) s₀ = some s₁ → ∀ c k, s₁.lookup c k ≠ some .inprogress := by
    intro cs
    induction cs with
    | nil =>
      intro s₀ s₁ hs hrun
      exact Option.some.inj hrun ▸ hs
    | cons c cs ih =>
      intro s₀ s₁ hs hrun
      rw [List.foldlM_cons] at hrun
      obtain ⟨s', hstep, hrun⟩ := Option.bind_eq_some_iff.mp hrun
      exact ih s' s₁ (loadCommit_settled hs hstep) hrun
  exact hfold o.commits.keys ⟨o, ∅⟩ s (by simp [lookup]) h c k

/-- Removing the directories of stale keys touches neither the files nor which commits have
a directory. -/
theorem removeDirAll_foldl (fs : RemoveEffect) (c : Text) (ks : List Text) (o : OutputDir)
    (hks : ∀ k ∈ ks, IsEntryName k) :
    (ks.foldl (fun o k => o.removeDirAll fs c k) o).files = o.files ∧
      ∀ c', (ks.foldl (fun o k => o.removeDirAll fs c k) o).commits.contains c' =
        o.commits.contains c' := by
  induction ks generalizing o with
  | nil => exact ⟨rfl, fun _ => rfl⟩
  | cons k ks ih =>
    have hk := hks k List.mem_cons_self
    obtain ⟨hfiles, hcontains⟩ := ih (o.removeDirAll fs c k)
      (fun k' hk' => hks k' (List.mem_cons_of_mem k hk'))
    refine ⟨hfiles.trans (o.files_removeDirAll fs c k hk), fun c' => ?_⟩
    exact (hcontains c').trans (o.contains_removeDirAll fs c k c' hk)

structure Loads (clear : Bool) (cs : List Text) (s s' : TestResultsStore) : Prop where
  produced : s'.outputDir.Produced
  contains : ∀ c, s'.outputDir.commits.contains c = s.outputDir.commits.contains c
  memory : ∀ c ∈ cs, s'.byCommit[c]? =
    if loadable s.outputDir c = true ∧ (kept clear (s.outputDir.decoded c)).isEmpty = false then
      some (kept clear (s.outputDir.decoded c)) else s.byCommit[c]?
  file : ∀ c ∈ cs, loadable s.outputDir c = true →
    s'.outputDir.decoded c = kept clear (s.outputDir.decoded c)
  other : ∀ c ∉ cs, s'.byCommit[c]? = s.byCommit[c]? ∧ s'.outputDir.capnp c = s.outputDir.capnp c
  clean : (∀ c ∈ cs, loadable s.outputDir c = true → staleKeys clear (s.outputDir.decoded c) = []) →
    s'.outputDir = s.outputDir

def WritesNeeded (io : LoadIo) (clear : Bool) (cs : List Text) (o : OutputDir) : Prop :=
  ∀ c ∈ cs, loadable o c = true → staleKeys clear (o.decoded c) ≠ [] →
    (io.write c).outcome = .written

theorem loads_skip {clear : Bool} {s : TestResultsStore} {c : Text} (hp : s.outputDir.Produced)
    (hskip : loadable s.outputDir c = false ∨ s.outputDir.decoded c = ∅) :
    Loads clear [c] s s where
  produced := hp
  contains := fun _ => rfl
  memory := by
    intro c' hc'
    obtain rfl := List.mem_singleton.mp hc'
    rcases hskip with h | h
    · simp [h]
    · have hempty : kept clear (∅ : TestResultsMap) = ∅ := by
        apply Std.ExtTreeMap.ext_getElem?
        intro k
        simp [getElem?_kept]
      simp [h, hempty]
  file := by
    intro c' hc' hl
    obtain rfl := List.mem_singleton.mp hc'
    rcases hskip with h | h
    · simp [h] at hl
    · rw [h]
      apply Std.ExtTreeMap.ext_getElem?
      intro k
      simp [getElem?_kept]
  other := fun _ _ => ⟨rfl, rfl⟩
  clean := fun _ => rfl

def loaded (io : LoadIo) (clear : Bool) (s : TestResultsStore) (c : Text) (m : TestResultsMap) :
    TestResultsStore where
  outputDir := if (staleKeys clear m).isEmpty then s.outputDir
    else ((staleKeys clear m).foldl (fun o k => o.removeDirAll io.remove c k)
      s.outputDir).resultsToCapnp (io.write c) c none (kept clear m)
  byCommit := if (kept clear m).isEmpty then s.byCommit else s.byCommit.insert c (kept clear m)

theorem loadCommit_cases (io : LoadIo) (clear : Bool) {s : TestResultsStore} (c : Text)
    (hp : s.outputDir.Produced) :
    (loadCommit io clear s c = some s ∧
      (loadable s.outputDir c = false ∨ s.outputDir.decoded c = ∅)) ∨
    (loadable s.outputDir c = true ∧ (∃ c' cm, ∃ m : TestResultsMap,
        s.outputDir.capnp c = some (.message (resultsMessage c' cm m)) ∧ ∀ k ∈ m, IsEntryName k) ∧
      loadCommit io clear s c = some (loaded io clear s c (s.outputDir.decoded c))) := by
  cases hl : loadable s.outputDir c with
  | false =>
    refine .inl ⟨?_, .inl rfl⟩
    unfold loadable at hl
    simp [loadCommit, hl]
  | true =>
    have hcond : (isCommitId c && s.outputDir.commits.contains c) = true := hl
    cases hf : s.outputDir.capnp c with
    | none =>
      refine .inl ⟨?_, .inr ?_⟩
      · simp only [loadCommit, hcond, if_true, hf, Option.map_none]
      · simp [OutputDir.decoded, hf]
    | some file =>
      rcases hp c file hf with rfl | ⟨c', cm, m, rfl, hm⟩
      · refine .inl ⟨?_, .inr ?_⟩
        · simp only [loadCommit, hcond, if_true, hf, Option.map_some, parseTestResults]
        · simp [OutputDir.decoded, hf, parseTestResults]
      · refine .inr ⟨rfl, ⟨c', cm, m, rfl, hm⟩, ?_⟩
        rw [OutputDir.decoded_of_message hf]
        simp only [loadCommit, hcond, if_true, hf, Option.map_some,
          parseTestResults_resultsMessage, loaded, kept]
        rfl

section Loaded

variable {io : LoadIo} {clear : Bool} {s : TestResultsStore} {c : Text}

theorem capnp_loaded (hnames : ∀ k ∈ staleKeys clear (s.outputDir.decoded c), IsEntryName k)
    (c₁ : Text) : (loaded io clear s c (s.outputDir.decoded c)).outputDir.capnp c₁ =
      if staleKeys clear (s.outputDir.decoded c) ≠ [] ∧ c = c₁ ∧ (io.write c).outcome = .written then
        some (.message (resultsMessage c none (kept clear (s.outputDir.decoded c))))
      else s.outputDir.capnp c₁ := by
  set stale := staleKeys clear (s.outputDir.decoded c) with hstale
  by_cases hnil : stale = []
  · simp [loaded, ← hstale, hnil]
  · have hold : OutputDir.capnp (stale.foldl (fun o k => o.removeDirAll io.remove c k)
        s.outputDir) c₁ = s.outputDir.capnp c₁ := by
      unfold OutputDir.capnp
      rw [(removeDirAll_foldl io.remove c stale s.outputDir hnames).1]
    simp only [loaded, ← hstale, List.isEmpty_iff, hnil, if_false,
      OutputDir.capnp_resultsToCapnp, hold, ne_eq, not_false_eq_true, true_and]

theorem contains_loaded (hnames : ∀ k ∈ staleKeys clear (s.outputDir.decoded c), IsEntryName k)
    (c₁ : Text) : (loaded io clear s c (s.outputDir.decoded c)).outputDir.commits.contains c₁ =
      s.outputDir.commits.contains c₁ := by
  by_cases hnil : staleKeys clear (s.outputDir.decoded c) = []
  · simp [loaded, hnil]
  · simp only [loaded, List.isEmpty_iff, hnil, if_false, OutputDir.commits_resultsToCapnp]
    exact (removeDirAll_foldl io.remove c _ s.outputDir hnames).2 c₁

theorem getElem?_byCommit_loaded (m : TestResultsMap) (c₁ : Text) :
    (loaded io clear s c m).byCommit[c₁]? =
      if c = c₁ ∧ (kept clear m).isEmpty = false then some (kept clear m) else s.byCommit[c₁]? := by
  unfold loaded
  cases (kept clear m).isEmpty with
  | true => simp
  | false => simp [TextMap.getElem?_insert]

theorem loads_loaded {c' : Text} {cm : Option Text} {m : TestResultsMap} (hp : s.outputDir.Produced)
    (hl : loadable s.outputDir c = true)
    (hf : s.outputDir.capnp c = some (.message (resultsMessage c' cm m)))
    (hm : ∀ k ∈ m, IsEntryName k) (hw : WritesNeeded io clear [c] s.outputDir) :
    Loads clear [c] s (loaded io clear s c (s.outputDir.decoded c)) := by
  have hdec : s.outputDir.decoded c = m.published := OutputDir.decoded_of_message hf
  have hmem {k : Text} (hk : k ∈ s.outputDir.decoded c) : IsEntryName k := by
    apply hm k
    rw [hdec, Std.ExtTreeMap.mem_iff_isSome_getElem?, TestResultsMap.getElem?_published] at hk
    rw [Std.ExtTreeMap.mem_iff_isSome_getElem?]
    simpa using hk
  have hnames : ∀ k ∈ staleKeys clear (s.outputDir.decoded c), IsEntryName k := by
    intro k hk
    obtain ⟨r, hr, -⟩ := mem_staleKeys.mp hk
    exact hmem (Std.ExtTreeMap.mem_iff_isSome_getElem?.mpr (by simp [hr]))
  have hcapnp (c₁ : Text) : (loaded io clear s c (s.outputDir.decoded c)).outputDir.capnp c₁ =
      if staleKeys clear (s.outputDir.decoded c) = [] ∨ c₁ ≠ c then s.outputDir.capnp c₁
      else some (.message (resultsMessage c none (kept clear (s.outputDir.decoded c)))) := by
    rw [capnp_loaded hnames]
    by_cases hnil : staleKeys clear (s.outputDir.decoded c) = []
    · simp [hnil]
    · have hwrite := hw c List.mem_cons_self hl hnil
      by_cases hc : c = c₁
      · subst hc
        simp [hnil, hwrite]
      · simp [hc, Ne.symm hc]
  refine ⟨?_, contains_loaded hnames, ?_, ?_, ?_, ?_⟩
  · intro c₁ file hfile
    rw [hcapnp] at hfile
    split_ifs at hfile
    · exact hp c₁ file hfile
    · exact .inr ⟨c, none, kept clear (s.outputDir.decoded c), (Option.some.inj hfile).symm,
        fun k hk => hmem (mem_of_mem_kept hk)⟩
  · intro c₁ hc₁
    obtain rfl := List.mem_singleton.mp hc₁
    simp [getElem?_byCommit_loaded, hl]
  · intro c₁ hc₁ _
    obtain rfl := List.mem_singleton.mp hc₁
    have hat := hcapnp c₁
    by_cases hnil : staleKeys clear (s.outputDir.decoded c₁) = []
    · rw [kept_of_staleKeys_eq_nil hnil]
      rw [if_pos (.inl hnil)] at hat
      exact (OutputDir.decoded_of_message (hat.trans hf)).trans hdec.symm
    · rw [if_neg (by simp [hnil])] at hat
      rw [OutputDir.decoded_of_message hat, hdec, kept_published, TestResultsMap.published_published]
  · intro c₁ hc₁
    have hne : c₁ ≠ c := by simpa using hc₁
    exact ⟨by simp [getElem?_byCommit_loaded, Ne.symm hne], by rw [hcapnp, if_pos (.inr hne)]⟩
  · intro hclean
    have hnil := hclean c List.mem_cons_self hl
    simp [loaded, hnil]

end Loaded

theorem loadCommit_spec (io : LoadIo) (clear : Bool) {s : TestResultsStore} (c : Text)
    (hp : s.outputDir.Produced) (hw : WritesNeeded io clear [c] s.outputDir) :
    ∃ s', loadCommit io clear s c = some s' ∧ Loads clear [c] s s' := by
  obtain ⟨h, hskip⟩ | ⟨hl, ⟨c', cm, m, hf, hm⟩, h⟩ := loadCommit_cases io clear c hp
  · exact ⟨s, h, loads_skip hp hskip⟩
  · exact ⟨_, h, loads_loaded hp hl hf hm hw⟩

theorem decoded_congr {o o' : OutputDir} {c : Text} (h : o'.capnp c = o.capnp c) :
    o'.decoded c = o.decoded c := by
  unfold OutputDir.decoded
  rw [h]

theorem Loads.cons {clear : Bool} {c : Text} {cs : List Text} {s s₁ s₂ : TestResultsStore}
    (hc : c ∉ cs) (h₁ : Loads clear [c] s s₁) (h₂ : Loads clear cs s₁ s₂) :
    Loads clear (c :: cs) s s₂ := by
  have hother {c' : Text} (hc' : c' ∈ cs) :
      s₁.byCommit[c']? = s.byCommit[c']? ∧ s₁.outputDir.capnp c' = s.outputDir.capnp c' :=
    h₁.other c' (fun h => hc (List.mem_singleton.mp h ▸ hc'))
  have hloadable (c' : Text) : loadable s₁.outputDir c' = loadable s.outputDir c' := by
    simp only [loadable, h₁.contains c']
  refine ⟨h₂.produced, fun c' => (h₂.contains c').trans (h₁.contains c'), ?_, ?_, ?_, ?_⟩
  · intro c' hc'
    rcases List.mem_cons.mp hc' with rfl | hc'
    · rw [(h₂.other c' hc).1, h₁.memory c' List.mem_cons_self]
    · obtain ⟨hmem, hfile⟩ := hother hc'
      rw [h₂.memory c' hc', hloadable, decoded_congr hfile, hmem]
  · intro c' hc' hl
    rcases List.mem_cons.mp hc' with rfl | hc'
    · rw [decoded_congr (h₂.other c' hc).2, h₁.file c' List.mem_cons_self hl]
    · rw [h₂.file c' hc' ((hloadable c').trans hl), decoded_congr (hother hc').2]
  · intro c' hc'
    obtain ⟨hne, hnot⟩ := not_or.mp (mt List.mem_cons.mpr hc')
    obtain ⟨hmem₁, hfile₁⟩ := h₁.other c' (by simpa using hne)
    obtain ⟨hmem₂, hfile₂⟩ := h₂.other c' hnot
    exact ⟨hmem₂.trans hmem₁, hfile₂.trans hfile₁⟩
  · intro hclean
    have hfirst : s₁.outputDir = s.outputDir :=
      h₁.clean (fun c' hc' => hclean c' (List.mem_singleton.mp hc' ▸ List.mem_cons_self))
    refine (h₂.clean (fun c' hc' hl => ?_)).trans hfirst
    rw [hfirst] at hl ⊢
    exact hclean c' (List.mem_cons_of_mem c hc') hl

theorem foldlM_loadCommit (io : LoadIo) (clear : Bool) (cs : List Text) (s : TestResultsStore)
    (hnodup : cs.Nodup) (hp : s.outputDir.Produced) (hw : WritesNeeded io clear cs s.outputDir) :
    ∃ s', cs.foldlM (loadCommit io clear) s = some s' ∧ Loads clear cs s s' := by
  induction cs generalizing s with
  | nil =>
    refine ⟨s, rfl, hp, fun _ => rfl, ?_, ?_, fun _ _ => ⟨rfl, rfl⟩, fun _ => rfl⟩
    · simp
    · simp
  | cons c cs ih =>
    obtain ⟨hc, hnodup⟩ := List.nodup_cons.mp hnodup
    obtain ⟨s₁, hload₁, h₁⟩ := loadCommit_spec io clear c hp
      (fun c' hc' => hw c' (List.mem_singleton.mp hc' ▸ List.mem_cons_self))
    have hw₁ : WritesNeeded io clear cs s₁.outputDir := by
      intro c' hc' hl hstale
      have hne : c' ∉ [c] := fun h => hc (List.mem_singleton.mp h ▸ hc')
      rw [decoded_congr (h₁.other c' hne).2] at hstale
      refine hw c' (List.mem_cons_of_mem c hc') ?_ hstale
      simpa only [loadable, h₁.contains c'] using hl
    obtain ⟨s₂, hload₂, h₂⟩ := ih s₁ hnodup h₁.produced hw₁
    refine ⟨s₂, ?_, h₁.cons hc h₂⟩
    rw [List.foldlM_cons, hload₁]
    exact hload₂

/-- `load` on files that `results_to_capnp` wrote. -/
theorem load_spec (io : LoadIo) (clear : Bool) (o : OutputDir) (hp : o.Produced)
    (hw : WritesNeeded io clear o.commits.keys o) :
    ∃ s, load io o clear = some s ∧ Loads clear o.commits.keys ⟨o, ∅⟩ s :=
  foldlM_loadCommit io clear o.commits.keys ⟨o, ∅⟩ Std.ExtTreeMap.nodup_keys hp hw

theorem mem_keys_of_loadable {o : OutputDir} {c : Text} (h : loadable o c = true) :
    c ∈ o.commits.keys := by
  simp only [loadable, Bool.and_eq_true] at h
  exact Std.ExtTreeMap.mem_keys.mpr h.2

theorem Loads.byCommit_eq {clear : Bool} {o : OutputDir} {s : TestResultsStore}
    (h : Loads clear o.commits.keys ⟨o, ∅⟩ s) (c : Text) : s.byCommit[c]? =
      if loadable o c = true ∧ (kept clear (o.decoded c)).isEmpty = false then
        some (kept clear (o.decoded c)) else none := by
  by_cases hc : c ∈ o.commits.keys
  · simpa using h.memory c hc
  · have hl : ¬ loadable o c = true := fun hl => hc (mem_keys_of_loadable hl)
    simpa [hl] using (h.other c hc).1

theorem Loads.results_eq {clear : Bool} {o : OutputDir} {s : TestResultsStore}
    (h : Loads clear o.commits.keys ⟨o, ∅⟩ s) (c : Text) :
    s.results c = if loadable o c = true then kept clear (o.decoded c) else ∅ := by
  rw [results, commitResults, h.byCommit_eq c]
  by_cases hl : loadable o c = true
  · cases he : (kept clear (o.decoded c)).isEmpty with
    | true => simp [Std.ExtTreeMap.isEmpty_iff.mp he]
    | false => simp [hl]
  · simp [hl]

/-- A second load finds nothing to drop. -/
theorem Loads.load_again {clear : Bool} {o : OutputDir} {s : TestResultsStore}
    (h : Loads clear o.commits.keys ⟨o, ∅⟩ s) (io : LoadIo) :
    load io s.outputDir clear = some s := by
  have hloadable (c : Text) : loadable s.outputDir c = loadable o c := by
    simp only [loadable, h.contains c]
  have hclean (c : Text) (hl : loadable s.outputDir c = true) :
      s.outputDir.decoded c = kept clear (o.decoded c) := by
    rw [hloadable] at hl
    exact h.file c (mem_keys_of_loadable hl) hl
  have hstale (c : Text) (hl : loadable s.outputDir c = true) :
      staleKeys clear (s.outputDir.decoded c) = [] := by
    rw [hclean c hl]
    exact staleKeys_kept clear _
  obtain ⟨s', hload, h'⟩ := load_spec io clear s.outputDir h.produced
    (fun c _ hl hne => absurd (hstale c hl) hne)
  have hdir : s'.outputDir = s.outputDir := h'.clean (fun c _ hl => hstale c hl)
  have hmem : s'.byCommit = s.byCommit := by
    apply Std.ExtTreeMap.ext_getElem?
    intro c
    rw [h'.byCommit_eq c, h.byCommit_eq c, hloadable]
    by_cases hl : loadable o c = true
    · rw [hclean c ((hloadable c).trans hl), kept_of_staleKeys_eq_nil (staleKeys_kept clear _)]
    · simp [hl]
  rw [hload]
  congr 1
  cases s' with | mk o' b' => cases s with | mk o b => exact congrArg₂ _ hdir hmem

structure Mirrored (s : TestResultsStore) : Prop where
  produced : s.outputDir.Produced
  memory : ∀ c, loadable s.outputDir c = true → s.outputDir.decoded c = (s.results c).published
  absent : ∀ c, loadable s.outputDir c = false → s.results c = ∅
  names : ∀ c, ∀ k ∈ s.results c, IsEntryName k

theorem decoded_eq_published {o : OutputDir} (hp : o.Produced) (c : Text) :
    ∃ m : TestResultsMap, o.decoded c = m.published ∧ ∀ k ∈ m, IsEntryName k := by
  have hempty {p : Option (Parsed CommitResultsCapnp)} (h : p = none ∨ p = some .error)
      (hd : (o.capnp c).map parseTestResults = p) :
      ∃ m : TestResultsMap, o.decoded c = m.published ∧ ∀ k ∈ m, IsEntryName k := by
    refine ⟨∅, ?_, by simp⟩
    rcases h with rfl | rfl <;> simp [OutputDir.decoded, hd, TestResultsMap.published]
  cases hf : o.capnp c with
  | none => exact hempty (.inl rfl) (by simp [hf])
  | some file =>
    rcases hp c file hf with rfl | ⟨c', cm, m, rfl, hm⟩
    · exact hempty (.inr rfl) (by simp [hf, parseTestResults])
    · exact ⟨m, OutputDir.decoded_of_message hf, hm⟩

theorem Loads.mirrored {clear : Bool} {o : OutputDir} {s : TestResultsStore}
    (h : Loads clear o.commits.keys ⟨o, ∅⟩ s) : Mirrored s := by
  have hloadable (c : Text) : loadable s.outputDir c = loadable o c := by
    simp only [loadable, h.contains c]
  have hresults (c : Text) (hl : loadable s.outputDir c = true) :
      s.results c = s.outputDir.decoded c := by
    rw [hloadable] at hl
    rw [h.results_eq c, if_pos hl, h.file c (mem_keys_of_loadable hl) hl]
  have habsent (c : Text) (hl : loadable s.outputDir c = false) : s.results c = ∅ := by
    rw [hloadable] at hl
    simp [h.results_eq c, hl]
  refine ⟨h.produced, ?_, habsent, ?_⟩
  · intro c hl
    obtain ⟨m, hm, -⟩ := decoded_eq_published h.produced c
    rw [hresults c hl, hm, TestResultsMap.published_published]
  · intro c k hk
    cases hl : loadable s.outputDir c with
    | false => simp [habsent c hl] at hk
    | true =>
      obtain ⟨m, hm, hnames⟩ := decoded_eq_published h.produced c
      rw [hresults c hl, hm, Std.ExtTreeMap.mem_iff_isSome_getElem?,
        TestResultsMap.getElem?_published, Option.isSome_map] at hk
      exact hnames k (Std.ExtTreeMap.mem_iff_isSome_getElem?.mpr hk)

/-- A call whose write succeeds, on a commit that `load` considers, with keys that name
directories. -/
structure Orderly (o : OutputDir) (io : CapnpWrite) (call : StoreCall) : Prop where
  written : io.outcome = .written
  loadable : loadable o call.commit = true
  names : ∀ k, call.Adds k → IsEntryName k

theorem Mirrored.apply {s : TestResultsStore} {io : CapnpWrite} {call : StoreCall}
    (h : Mirrored s) (hcall : Orderly s.outputDir io call) : Mirrored (s.apply io call) := by
  obtain ⟨-, heq⟩ | ⟨-, m, heq, hm⟩ := s.apply_cases io call
  · rwa [heq]
  · have hnames : ∀ k ∈ m, IsEntryName k := by
      intro k hk
      rcases hm k hk with hk | hk
      · exact h.names _ k hk
      · exact hcall.names k hk
    have hcapnp (c : Text) : (s.replace io call.commit m).outputDir.capnp c =
        if call.commit = c then some (.message (resultsMessage call.commit none m))
        else s.outputDir.capnp c := by
      simp [replace, OutputDir.capnp_resultsToCapnp, hcall.written]
    have hloadable (c : Text) : TestResultsStore.loadable (s.replace io call.commit m).outputDir c =
        TestResultsStore.loadable s.outputDir c := by
      simp [TestResultsStore.loadable, replace]
    rw [heq]
    refine ⟨?_, ?_, ?_, ?_⟩
    · intro c file hfile
      rw [hcapnp] at hfile
      split_ifs at hfile
      · exact .inr ⟨call.commit, none, m, (Option.some.inj hfile).symm, hnames⟩
      · exact h.produced c file hfile
    · intro c hl
      have hfile := hcapnp c
      rw [results_replace]
      split_ifs at hfile ⊢ with hc
      · exact OutputDir.decoded_of_message hfile
      · rw [decoded_congr hfile]
        exact h.memory c ((hloadable c).symm.trans hl)
    · intro c hl
      rw [hloadable] at hl
      have hc : call.commit ≠ c := by
        rintro rfl
        simp [hcall.loadable] at hl
      rw [results_replace, if_neg hc]
      exact h.absent c hl
    · intro c k hk
      rw [results_replace] at hk
      split_ifs at hk
      · exact hnames k hk
      · exact h.names c k hk

theorem Mirrored.run {s : TestResultsStore} {calls : List (CapnpWrite × StoreCall)}
    (h : Mirrored s) (hcalls : ∀ ic ∈ calls, Orderly s.outputDir ic.1 ic.2) :
    Mirrored (s.run calls) := by
  induction calls generalizing s with
  | nil => exact h
  | cons ic calls ih =>
    obtain ⟨io, call⟩ := ic
    refine ih (h.apply (hcalls _ List.mem_cons_self)) ?_
    intro ic hic
    obtain ⟨hw, hl, hn⟩ := hcalls ic (List.mem_cons_of_mem _ hic)
    exact ⟨hw, by simpa [TestResultsStore.loadable] using hl, hn⟩

/-- What a restart finds, and that a second restart changes nothing. -/
structure Restarts (s : TestResultsStore) (io : LoadIo) (clear : Bool) (s₁ : TestResultsStore) :
    Prop where
  load : load io s.outputDir clear = some s₁
  lookup : ∀ c k st, s₁.lookup c k = some st ↔
    s.lookup c k = some st ∧ st ≠ .inprogress ∧ (clear = true → st ≠ .failedToRun)
  load_again : ∀ io', TestResultsStore.load io' s₁.outputDir clear = some s₁

theorem dropStatus_eq_false_iff (clear : Bool) (st : TestStatus) : dropStatus clear st = false ↔
    st ≠ .inprogress ∧ (clear = true → st ≠ .failedToRun) := by
  cases clear <;> cases st <;> decide

/-- A mirrored store restarts as itself, without the dropped statuses. -/
theorem Mirrored.restarts {s : TestResultsStore} (h : Mirrored s) (io : LoadIo) (clear : Bool)
    (hw : ∀ c, (io.write c).outcome = .written) : ∃ s₁, Restarts s io clear s₁ := by
  obtain ⟨s₁, hload, h₁⟩ := load_spec io clear s.outputDir h.produced (fun c _ _ _ => hw c)
  refine ⟨s₁, hload, ?_, h₁.load_again⟩
  intro c k st
  rw [lookup_eq_results, lookup_eq_results, h₁.results_eq c, ← dropStatus_eq_false_iff]
  cases hl : loadable s.outputDir c with
  | false => simp [h.absent c hl]
  | true =>
    rw [if_pos rfl, h.memory c hl, getElem?_kept, TestResultsMap.getElem?_published]
    cases (s.results c)[k]? with
    | none => simp
    | some r =>
      by_cases hd : dropStatus clear r.status = true
      · simp only [Option.map_some, Option.filter_some, TestResult.status_published, hd]
        constructor
        · intro hfalse
          simp at hfalse
        · rintro ⟨hst, hkeep⟩
          rw [← Option.some.inj hst, hd] at hkeep
          simp at hkeep
      · simp only [Option.map_some, Option.filter_some, TestResult.status_published, hd]
        constructor
        · intro hst
          obtain rfl : r.status = st := by simpa using hst
          simp [hd]
        · rintro ⟨hst, -⟩
          simpa using hst

/-- Every file holds the last map that was written for its commit, whatever writes failed.
If no write failed, a restarted store holds what the old one did, apart from the statuses
that a restart drops. -/
theorem files_mirror_store :
    (∀ (s : TestResultsStore) (calls : List (CapnpWrite × StoreCall)) (c : Text),
      s.FileMirrors calls c) ∧
    (∀ (io₀ io : LoadIo) (o : OutputDir) (clear₀ clear : Bool) (s : TestResultsStore)
      (calls : List (CapnpWrite × StoreCall)), o.Produced →
        (∀ c, (io₀.write c).outcome = .written) → (∀ c, (io.write c).outcome = .written) →
          load io₀ o clear₀ = some s → (∀ ic ∈ calls, Orderly s.outputDir ic.1 ic.2) →
            ∃ s₁, Restarts (s.run calls) io clear s₁) := by
  refine ⟨fileMirrors, ?_⟩
  intro io₀ io o clear₀ clear s calls hp hw₀ hw hload hcalls
  obtain ⟨s', hload', hs⟩ := load_spec io₀ clear₀ o hp (fun c _ _ _ => hw₀ c)
  obtain rfl : s' = s := Option.some.inj (hload'.symm.trans hload)
  exact (hs.mirrored.run hcalls).restarts io clear hw

def interruptedDir (commitId : Text) : OutputDir :=
  OutputDir.resultsToCapnp ⟨∅, (∅ : TextMap (TextMap ResultDir)).insert commitId ∅⟩
    ⟨"71.0".toList, .written⟩ commitId none
    ((∅ : TestResultsMap).insert "boot.boot".toList ⟨.inprogress, 0, 0⟩)

theorem files_mirror_store_interrupted : ∃ s,
    load ⟨fun _ => ⟨"80.0".toList, .written⟩, ⟨fun _ _ _ => none, fun o _ _ => o⟩⟩
      (interruptedDir (List.replicate 40 'a')) false = some s ∧
    ∃ s₁, Restarts
      (s.run [(⟨"80.1".toList, .written⟩, .updateOne (List.replicate 40 'a') "boot.boot".toList
        ⟨.failedToRun, 5, 0⟩)])
      ⟨fun _ => ⟨"81.0".toList, .written⟩, ⟨fun _ _ _ => none, fun o _ _ => o⟩⟩ true s₁ := by
  have hp : (interruptedDir (List.replicate 40 'a')).Produced := by
    intro c file hfile
    rw [interruptedDir, OutputDir.capnp_resultsToCapnp] at hfile
    split_ifs at hfile
    · refine .inr ⟨_, _, _, (Option.some.inj hfile).symm, ?_⟩
      intro k hk
      simp only [Std.ExtTreeMap.mem_insert, Std.ExtTreeMap.not_mem_empty, or_false] at hk
      rw [← Std.LawfulEqCmp.eq_of_compare hk]
      decide
    · simp [OutputDir.capnp] at hfile
  obtain ⟨s, hload, hs⟩ := load_spec ⟨fun _ => ⟨"80.0".toList, .written⟩,
    ⟨fun _ _ _ => none, fun o _ _ => o⟩⟩ false _ hp (fun _ _ _ _ => rfl)
  refine ⟨s, hload, files_mirror_store.2 _ _ _ _ _ _ _ hp (fun _ => rfl) (fun _ => rfl) hload ?_⟩
  intro ic hic
  obtain rfl := List.mem_singleton.mp hic
  refine ⟨rfl, ?_, ?_⟩
  · rw [loadable, hs.contains]
    simp only [interruptedDir, OutputDir.commits_resultsToCapnp, StoreCall.commit]
    decide
  · rintro k rfl
    decide

/-- Removals that follow the path: the key `""` is the commit's directory itself. -/
def removesCommitDir : RemoveEffect where
  remains := fun _ _ _ => none
  elsewhere := fun o commitId key =>
    if key.isEmpty then { o with commits := o.commits.erase commitId } else o

def emptyKeyIo : LoadIo := ⟨fun _ => ⟨"80.0".toList, .written⟩, removesCommitDir⟩

def untestedDir (commitId : Text) : OutputDir := ⟨∅, (∅ : TextMap (TextMap ResultDir)).insert commitId ∅⟩

def emptyKeyCalls (commitId : Text) : List (CapnpWrite × StoreCall) :=
  [(⟨"80.1".toList, .written⟩, .updateOne commitId "boot.boot".toList ⟨.passed, 5, 3⟩),
    (⟨"80.2".toList, .written⟩, .updateOne commitId [] ⟨.inprogress, 6, 0⟩)]

/-- A restart drops the entry of the empty key and the commit's directory with it, so the next
one does not find the commit. -/
theorem not_restarts_emptyKey : (untestedDir (List.replicate 40 'a')).Produced ∧
    (∀ c, (emptyKeyIo.write c).outcome = .written) ∧
    ∃ s, load emptyKeyIo (untestedDir (List.replicate 40 'a')) false = some s ∧
      (∀ ic ∈ emptyKeyCalls (List.replicate 40 'a'), ic.1.outcome = .written ∧
        loadable s.outputDir ic.2.commit = true) ∧
      ¬ ∃ s₁, Restarts (s.run (emptyKeyCalls (List.replicate 40 'a'))) emptyKeyIo false s₁ := by
  refine ⟨?_, fun _ => rfl, _, rfl, by decide +kernel, ?_⟩
  · intro c file hfile
    simp [untestedDir, OutputDir.capnp] at hfile
  rintro ⟨s₁, hrestarts⟩
  have hload : load emptyKeyIo ((TestResultsStore.mk (untestedDir (List.replicate 40 'a')) ∅).run
      (emptyKeyCalls (List.replicate 40 'a'))).outputDir false = some s₁ := hrestarts.load
  have hfirst : (load emptyKeyIo ((TestResultsStore.mk (untestedDir (List.replicate 40 'a')) ∅).run
      (emptyKeyCalls (List.replicate 40 'a'))).outputDir false).map
        (fun s => s.lookup (List.replicate 40 'a') "boot.boot".toList) = some (some .passed) := by
    decide +kernel
  have hsecond : ((load emptyKeyIo ((TestResultsStore.mk (untestedDir (List.replicate 40 'a')) ∅).run
      (emptyKeyCalls (List.replicate 40 'a'))).outputDir false).bind
        (fun s => load emptyKeyIo s.outputDir false)).map
          (fun s => s.lookup (List.replicate 40 'a') "boot.boot".toList) = some none := by
    decide +kernel
  rw [hload] at hfirst
  rw [hload, Option.bind_some, hrestarts.load_again emptyKeyIo] at hsecond
  have hsome : s₁.lookup (List.replicate 40 'a') "boot.boot".toList = some .passed := Option.some.inj hfirst
  have hnone : s₁.lookup (List.replicate 40 'a') "boot.boot".toList = none := Option.some.inj hsecond
  rw [hsome] at hnone
  cases hnone

end TestResultsStore
end KtestCi
