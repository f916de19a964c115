import KtestCi.BatchOwed

/-!
# Verdicts stand

The results that a batch may still write are not verdicts when nobody else writes them, as
long as its keys are distinct: a VM run is recorded for the subtests that still have no
verdict, and the error path writes only what it has seen in progress.
-/

namespace KtestCi
namespace BatchRun

variable (b : Batch)

def isVerdict (status : Option TestStatus) : Bool := status.any resultIsDone

theorem not_isVerdict_of_jobWanted {status : Option TestStatus} (h : jobWanted status = true) :
    isVerdict status = false := by
  rcases (jobWanted_iff status).mp h with rfl | rfl <;> rfl

def unsettled : Stage → List Text
  | .start | .marking _ _ _ | .checkout _ | .syncKtest _ | .buildSupervisor _ | .prepare _ => b.keys
  | .supervise remaining _ _ | .pulling remaining _ _ | .collecting _ remaining _ _ _ _
  | .cleaning remaining _ => remaining.map b.key
  | .failing _ updates _ _ => updates.keys
  | .failWrite job _ updates _ _ => job.payload.resultKey :: updates.keys
  | .teardown _ | .returned _ => []

def Orderly : Stage → Prop
  | .supervise remaining _ _ | .pulling remaining _ _ | .cleaning remaining _ =>
    (remaining.map b.key).Nodup
  | .collecting todo remaining next verdicts _ _ => (remaining.map b.key).Nodup ∧
      (next ++ todo).Sublist remaining ∧ (∀ st ∈ todo, b.key st ∉ verdicts) ∧
      ∀ st ∈ next, verdicts[b.key st]?.map TestResult.status = some .inprogress
  | _ => True

def Unsettled (s : TestResultsStore) (st : Stage) : Prop :=
  ∀ k ∈ unsettled b st, isVerdict (s.lookup b.commit k) = false

variable {b}

theorem orderly_resume {remaining : List Text} {didClean : Bool} {now : ℤ}
    (h : (remaining.map b.key).Nodup) : Orderly b (resume remaining didClean now) := by
  unfold resume
  split_ifs
  · trivial
  · exact h

theorem Orderly.moves {s s' : TestResultsStore} {st st' : Stage} {e : Event} (h : Orderly b st)
    (hkeys : b.keys.Nodup) (hm : Moves b s st e s' st') : Orderly b st' := by
  cases hm with
  | setup outcome hsetup hok =>
    cases hsetup with
    | prepare now => exact hkeys
    | _ => trivial
  | supervised => exact h
  | pulled => exact ⟨h, by simp, by simp, by simp⟩
  | read st todo remaining next verdicts didClean now =>
    obtain ⟨hnodup, hsub, htodo, hnext⟩ := h
    have hdistinct : ((next ++ st :: todo).map b.key).Nodup := hnodup.sublist (hsub.map b.key)
    simp only [List.map_append, List.map_cons, List.nodup_append, List.nodup_cons] at hdistinct
    obtain ⟨-, ⟨hst, -⟩, hdisj⟩ := hdistinct
    have hother {st' : Text} (hst' : st' ∈ next) : b.key st ≠ b.key st' :=
      (hdisj _ (List.mem_map.mpr ⟨st', hst', rfl⟩) _ List.mem_cons_self).symm
    refine ⟨hnodup, ?_, ?_, ?_⟩
    · split_ifs
      · simpa using hsub
      · exact (List.Sublist.append_left (List.sublist_cons_self st todo) next).trans hsub
    · intro st' hst' hin
      rcases Std.ExtTreeMap.mem_insert.mp hin with heq | hin
      · rw [Std.LawfulEqCmp.eq_of_compare heq] at hst
        exact hst (List.mem_map.mpr ⟨st', hst', rfl⟩)
      · exact htodo st' (List.mem_cons_of_mem st hst') hin
    · intro st' hst'
      rw [TextMap.getElem?_insert]
      split_ifs at hst' with hstatus
      · rcases List.mem_append.mp hst' with hst' | hst'
        · rw [if_neg (hother hst')]
          exact hnext st' hst'
        · obtain rfl := List.mem_singleton.mp hst'
          simpa using hstatus
      · rw [if_neg (hother hst')]
        exact hnext st' hst'
  | recorded remaining next verdicts didClean now io =>
    obtain ⟨hnodup, hsub, -, -⟩ := h
    rw [List.append_nil] at hsub
    unfold afterVerdicts
    split_ifs
    · trivial
    · exact hnodup
    · exact orderly_resume (hnodup.sublist (hsub.map b.key))
  | cleaned => exact orderly_resume h
  | _ => trivial

theorem mem_keys_of_mem_unsettled {st : Stage} {k : Text} (hvalid : Valid b st)
    (hb : b.Homogeneous) (hk : k ∈ unsettled b st) : k ∈ b.keys ∧ ∀ r, st ≠ .returned r := by
  have hupdates {updates : TestResultsMap} (hall : ∀ (k : Text) (r : TestResult),
      updates[k]? = some r → r.status = .failedToRun ∧ k ∈ b.keys) (hk : k ∈ updates.keys) :
      k ∈ b.keys := by
    obtain ⟨r, hr⟩ := TextMap.mem_iff_exists.mp (Std.ExtTreeMap.mem_keys.mp hk)
    exact (hall k r hr).2
  cases st with
  | start | marking | checkout | syncKtest | buildSupervisor | prepare => exact ⟨hk, by simp⟩
  | supervise | pulling | cleaning => exact ⟨mem_keys_of_mem_map hvalid.2 hk, by simp⟩
  | collecting => exact ⟨mem_keys_of_mem_map hvalid.1.2 hk, by simp⟩
  | teardown | returned => simp [unsettled] at hk
  | failing todo updates now e => exact ⟨hupdates hvalid.2 hk, by simp⟩
  | failWrite job todo updates now e =>
    refine ⟨?_, by simp⟩
    rcases List.mem_cons.mp hk with rfl | hk
    · exact hb.resultKey_mem hvalid.1.1
    · exact hupdates hvalid.2 hk

theorem Moves.result_eq {s s' : TestResultsStore} {st st' : Stage} {e : Event}
    (hm : Moves b s st e s' st') (hvalid : Valid b st) {c k : Text}
    (hne : ¬ (b.commit = c ∧ k ∈ unsettled b st)) : (s'.results c)[k]? = (s.results c)[k]? := by
  have hupdate {io : CapnpWrite} {updates : TestResultsMap}
      (hkeys : ∀ r, updates[k]? = some r → k ∈ unsettled b st) :
      ((s.update io b.commit updates).results c)[k]? = (s.results c)[k]? := by
    apply TestResultsStore.getElem?_results_update
    rintro ⟨hc, hmem⟩
    obtain ⟨r, hr⟩ := TextMap.mem_iff_exists.mp hmem
    exact hne ⟨hc, hkeys r hr⟩
  cases hm with
  | marked now marks io => exact hupdate (fun r hr => (hvalid.2.2 k r hr).2)
  | recorded remaining next verdicts didClean now io =>
    exact hupdate (fun r hr => (hvalid.2.2.2.2 k r hr).1)
  | failed updates now e io =>
    exact hupdate (fun r hr => Std.ExtTreeMap.mem_keys.mpr (TextMap.mem_iff_exists.mpr ⟨r, hr⟩))
  | _ => rfl

theorem mem_next_of_mem_unsettled {remaining next : List Text} {didClean : Bool} {now : ℤ} {k : Text}
    (hsub : next.Sublist remaining) (hk : k ∈ unsettled b (afterVerdicts remaining next didClean now)) :
    k ∈ next.map b.key := by
  unfold afterVerdicts at hk
  split_ifs at hk with hlen hclean
  · simp [unsettled] at hk
  · rwa [hsub.eq_of_length hlen]
  · unfold resume at hk
    split_ifs at hk
    · simp [unsettled] at hk
    · exact hk

theorem unsettled_recorded {s : TestResultsStore} {remaining next : List Text}
    {verdicts : TestResultsMap} {didClean : Bool} {now : ℤ} {io : CapnpWrite}
    (h : Orderly b (.collecting [] remaining next verdicts didClean now)) :
    Unsettled b (s.update io b.commit verdicts) (afterVerdicts remaining next didClean now) := by
  obtain ⟨-, hsub, -, hnext⟩ := h
  rw [List.append_nil] at hsub
  intro k hk
  obtain ⟨st, hst, rfl⟩ := List.mem_map.mp (mem_next_of_mem_unsettled hsub hk)
  obtain ⟨r, hr, hstatus⟩ := Option.map_eq_some_iff.mp (hnext st hst)
  rw [TestResultsStore.lookup_update_of_some hr, hstatus]
  rfl

theorem Unsettled.moves {s s' : TestResultsStore} {st st' : Stage} {e : Event}
    (h : Unsettled b s st) (hvalid : Valid b st) (horderly : Orderly b st)
    (hm : Moves b s st e s' st') : Unsettled b s' st' := by
  cases hm with
  | fatal | setupFailed | superviseFailed | pullFailed | cleanFailed | succeed | failed =>
    simp [Unsettled, unsettled]
  | start | mark | supervised | pulled | read => exact h
  | marked now marks io =>
    intro k hk
    obtain ⟨r, hr, hstatus⟩ := hvalid.exists_mark hk
    rw [TestResultsStore.lookup_update_of_some hr, hstatus]
    rfl
  | setup outcome hsetup hok => cases hsetup <;> exact h
  | recorded remaining next verdicts didClean now io => exact unsettled_recorded horderly
  | cleaned remaining now code =>
    unfold resume
    split_ifs
    · simp [Unsettled, unsettled]
    · exact h
  | fail now e => simp [Unsettled, unsettled]
  | lookupInprogress j todo updates now e hlookup =>
    intro k hk
    rcases List.mem_cons.mp hk with rfl | hk
    · rw [hlookup]
      rfl
    · exact h k hk
  | lookupOther => exact h
  | failWrite j todo updates now e w =>
    intro k hk
    simp only [unsettled, Std.ExtTreeMap.mem_keys, Std.ExtTreeMap.mem_insert] at hk
    rcases hk with heq | hk
    · obtain rfl := Std.LawfulEqCmp.eq_of_compare heq
      exact h _ List.mem_cons_self
    · exact h k (List.mem_cons_of_mem _ (Std.ExtTreeMap.mem_keys.mpr hk))

end BatchRun
end KtestCi
