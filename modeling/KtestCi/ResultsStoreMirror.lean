import KtestCi.ResultsStore

/-!
# The published files mirror the store

After any sequence of calls, the file of a commit holds the map of the last call on the
commit whose write succeeded. When all writes succeeded, a restarted store holds what the
old one held, apart from the statuses that a restart drops, and a second restart finds
nothing more to change.
-/

namespace KtestCi

/-- Two maps with the same names, statuses and durations. -/
def SameOutcomes (m m' : TestResultsMap) : Prop :=
  ∀ k : Text, m[k]?.map (fun r => (r.status, r.duration)) = m'[k]?.map (fun r => (r.status, r.duration))

theorem sameOutcomes_published (m : TestResultsMap) : SameOutcomes m.published m := by
  intro k
  simp [Function.comp_def]

namespace TestResultsStore

theorem lookup_eq_results (s : TestResultsStore) (c k : Text) :
    s.lookup c k = (s.results c)[k]?.map TestResult.status := by
  unfold lookup results commitResults
  cases s.byCommit[c]? with
  | none => simp
  | some m => simp

theorem results_replace (s : TestResultsStore) (io : CapnpWrite) (c : Text) (m : TestResultsMap)
    (c' : Text) : (s.replace io c m).results c' = if c = c' then m else s.results c' := by
  unfold results commitResults replace
  rw [TextMap.getElem?_insert]
  split_ifs <;> rfl

theorem results_update (s : TestResultsStore) (io : CapnpWrite) (commit : Text)
    (updates : TestResultsMap) (c : Text) : (s.update io commit updates).results c =
      if commit = c then s.results c ∪ updates else s.results c := by
  unfold update
  by_cases he : updates.isEmpty = true
  · have hnone := (TextMap.isEmpty_iff_getElem? updates).mp he
    have hunion : s.results c ∪ updates = s.results c := by
      apply Std.ExtTreeMap.ext_getElem?
      intro k
      simp [Std.ExtTreeMap.getElem?_union, hnone k]
    rw [if_pos he, hunion, ite_self]
  · rw [if_neg he, results_replace]
    by_cases hc : commit = c
    · subst hc
      simp [results, commitResults]
    · simp [hc]

theorem getElem?_results_update {c k : Text} {s : TestResultsStore} {io : CapnpWrite} {commit : Text}
    {updates : TestResultsMap} (h : ¬ (commit = c ∧ k ∈ updates)) :
    ((s.update io commit updates).results c)[k]? = (s.results c)[k]? := by
  rw [results_update]
  by_cases hc : commit = c
  · have hk : k ∉ updates := fun hk => h ⟨hc, hk⟩
    rw [if_pos hc]
    exact Std.ExtTreeMap.getElem?_union_of_not_mem_right hk
  · rw [if_neg hc]

theorem getElem?_results_update_of_some {s : TestResultsStore} {io : CapnpWrite} {c k : Text}
    {updates : TestResultsMap} {r : TestResult} (h : updates[k]? = some r) :
    ((s.update io c updates).results c)[k]? = some r := by
  rw [results_update, if_pos rfl]
  simp [Std.ExtTreeMap.getElem?_union, h]

theorem lookup_update_of_some {s : TestResultsStore} {io : CapnpWrite} {c k : Text}
    {updates : TestResultsMap} {r : TestResult} (h : updates[k]? = some r) :
    (s.update io c updates).lookup c k = some r.status := by
  rw [lookup_eq_results, getElem?_results_update_of_some h]
  rfl

theorem lookup_update_of_ne {s : TestResultsStore} {io : CapnpWrite} {commit c k : Text}
    {updates : TestResultsMap} (h : ¬ (commit = c ∧ k ∈ updates)) :
    (s.update io commit updates).lookup c k = s.lookup c k := by
  rw [lookup_eq_results, lookup_eq_results, getElem?_results_update h]

@[simp] theorem commits_update (s : TestResultsStore) (io : CapnpWrite) (commit : Text)
    (updates : TestResultsMap) : (s.update io commit updates).outputDir.commits = s.outputDir.commits := by
  unfold update
  split_ifs <;> simp [replace]

theorem apply_cases (s : TestResultsStore) (io : CapnpWrite) (call : StoreCall) :
    (call.rewrites s = false ∧ s.apply io call = s) ∨
      (call.rewrites s = true ∧ ∃ m : TestResultsMap, s.apply io call = s.replace io call.commit m ∧
        ∀ k ∈ m, k ∈ s.results call.commit ∨ call.Adds k) := by
  cases call with
  | update commit updates =>
    by_cases he : updates.isEmpty = true
    · exact .inl ⟨by simp [StoreCall.rewrites, he], by simp [apply, update, he]⟩
    · refine .inr ⟨by simp [StoreCall.rewrites, he], s.results commit ∪ updates, ?_, ?_⟩
      · simp [apply, update, he, results, commitResults, StoreCall.commit]
      · intro k hk
        exact Std.ExtTreeMap.mem_union_iff.mp hk
  | updateOne commit key result =>
    refine .inr ⟨rfl, s.results commit ∪ (∅ : TestResultsMap).insert key result, ?_, ?_⟩
    · simp [apply, updateOne, update, results, commitResults, StoreCall.commit]
    · intro k hk
      rcases Std.ExtTreeMap.mem_union_iff.mp hk with hk | hk
      · exact .inl hk
      · right
        simp only [Std.ExtTreeMap.mem_insert, Std.ExtTreeMap.not_mem_empty, or_false] at hk
        exact (Std.LawfulEqCmp.eq_of_compare hk).symm
  | delete commit keys =>
    cases hc : s.byCommit[commit]? with
    | none =>
      exact .inl ⟨by simp [StoreCall.rewrites, lookup, hc], by simp [apply, delete, hc]⟩
    | some entry =>
      have hkeys : StoreCall.rewrites s (.delete commit keys) =
          keys.any (fun k => entry.contains k) := by
        simp [StoreCall.rewrites, lookup, hc]
      rw [hkeys]
      cases hany : keys.any (fun k => entry.contains k) with
      | false => exact .inl ⟨rfl, by simp only [apply, delete, hc, hany]; simp⟩
      | true =>
        have hne : keys.isEmpty = false := by
          cases keys with
          | nil => simp at hany
          | cons k ks => rfl
        refine .inr ⟨rfl, TextMap.eraseKeys entry keys, ?_, ?_⟩
        · simp [apply, delete, hc, hany, hne, StoreCall.commit]
        · intro k hk
          left
          have hentry : s.results commit = entry := by simp [results, commitResults, hc]
          rw [Std.ExtTreeMap.mem_iff_isSome_getElem?, TextMap.getElem?_eraseKeys] at hk
          simp only [StoreCall.commit, hentry, Std.ExtTreeMap.mem_iff_isSome_getElem?]
          split_ifs at hk
          · simp at hk
          · exact hk

@[simp] theorem commits_apply (s : TestResultsStore) (io : CapnpWrite) (call : StoreCall) :
    (s.apply io call).outputDir.commits = s.outputDir.commits := by
  obtain ⟨-, h⟩ | ⟨-, m, h, -⟩ := s.apply_cases io call
  · rw [h]
  · simp [h, replace]

/-- The map of a commit right after the last call on it whose write succeeded. -/
def lastWritten (s : TestResultsStore) (c : Text) :
    List (CapnpWrite × StoreCall) → Option TestResultsMap
  | [] => none
  | (io, call) :: calls =>
    let s' := s.apply io call
    (s'.lastWritten c calls).or
      (if call.commit = c ∧ call.rewrites s = true ∧ io.outcome = .written then some (s'.results c)
        else none)

theorem capnp_apply (s : TestResultsStore) (io : CapnpWrite) (call : StoreCall) (c : Text) :
    (s.apply io call).outputDir.capnp c =
      if call.commit = c ∧ call.rewrites s = true ∧ io.outcome = .written then
        some (.message (resultsMessage c none ((s.apply io call).results c)))
      else s.outputDir.capnp c := by
  obtain ⟨hr, h⟩ | ⟨hr, m, h, -⟩ := s.apply_cases io call
  · simp [h, hr]
  · rw [h, results_replace]
    simp only [replace, OutputDir.capnp_resultsToCapnp, hr, true_and]
    by_cases hc : call.commit = c <;> simp [hc]

theorem capnp_run (s : TestResultsStore) (calls : List (CapnpWrite × StoreCall)) (c : Text) :
    (s.run calls).outputDir.capnp c = match s.lastWritten c calls with
      | none => s.outputDir.capnp c
      | some m => some (.message (resultsMessage c none m)) := by
  induction calls generalizing s with
  | nil => rfl
  | cons iocall calls ih =>
    obtain ⟨io, call⟩ := iocall
    simp only [run, lastWritten, ih (s.apply io call)]
    cases (s.apply io call).lastWritten c calls with
    | some m => simp
    | none =>
      rw [capnp_apply]
      split_ifs <;> simp

/-- The file of a commit after a run of calls: the last map that was written, or what was
there before. -/
def FileMirrors (s : TestResultsStore) (calls : List (CapnpWrite × StoreCall)) (c : Text) : Prop :=
  match s.lastWritten c calls with
  | none => (s.run calls).outputDir.capnp c = s.outputDir.capnp c
  | some m => ∃ file r, (s.run calls).outputDir.capnp c = some file ∧
      parseTestResults file = .ok r ∧ SameOutcomes r.tests m

theorem fileMirrors (s : TestResultsStore) (calls : List (CapnpWrite × StoreCall)) (c : Text) :
    s.FileMirrors calls c := by
  have hrun := s.capnp_run calls c
  unfold FileMirrors
  cases hl : s.lastWritten c calls with
  | none => simpa [hl] using hrun
  | some m =>
    simp only [hl] at hrun
    exact ⟨_, _, hrun, parseTestResults_resultsMessage c none m, sameOutcomes_published m⟩

end TestResultsStore
end KtestCi
