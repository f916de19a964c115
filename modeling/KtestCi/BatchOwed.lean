import KtestCi.BatchRun
import KtestCi.ResultsStoreMirror

/-!
# What a running batch owes

A batch that has marked results in progress owes each of them another status. The steps of
a batch discharge what it owes: by a verdict it pulled, by the status of its error path, or
by finding that another batch has settled the result.
-/

namespace KtestCi
namespace BatchRun

variable (b : Batch)

/-- The keys that a batch in this stage would have to settle before it returns. -/
def owed : Stage → List Text
  | .start | .marking _ _ _ | .teardown none | .returned _ => []
  | .checkout _ | .syncKtest _ | .buildSupervisor _ | .prepare _ | .teardown (some _) => b.keys
  | .supervise remaining _ _ | .pulling remaining _ _ | .collecting _ remaining _ _ _ _
  | .cleaning remaining _ => remaining.map b.key
  | .failing todo updates _ _ => todo.map (fun j => j.payload.resultKey) ++ updates.keys
  | .failWrite job todo updates _ _ =>
    job.payload.resultKey :: todo.map (fun j => j.payload.resultKey) ++ updates.keys

/-- The maps that a batch builds up agree with its loops. -/
def Valid : Stage → Prop
  | .marking todo _ marks => todo ⊆ b.subtests ∧
      (∀ st ∈ b.subtests, st ∈ todo ∨ b.key st ∈ marks) ∧
      ∀ (k : Text) (r : TestResult), marks[k]? = some r → r.status = .inprogress ∧ k ∈ b.keys
  | .supervise remaining _ _ | .pulling remaining _ _ | .cleaning remaining _ =>
    remaining ≠ [] ∧ remaining ⊆ b.subtests
  | .collecting todo remaining next verdicts _ _ => (remaining ≠ [] ∧ remaining ⊆ b.subtests) ∧
      todo ⊆ remaining ∧ next ⊆ remaining ∧ (∀ st ∈ remaining, st ∈ todo ∨ b.key st ∈ verdicts) ∧
      ∀ (k : Text) (r : TestResult), verdicts[k]? = some r →
        k ∈ remaining.map b.key ∧ (r.status = .inprogress → k ∈ next.map b.key)
  | .failing todo updates _ _ => todo ⊆ b.jobs ∧
      ∀ (k : Text) (r : TestResult), updates[k]? = some r → r.status = .failedToRun ∧ k ∈ b.keys
  | .failWrite job todo updates _ _ => (job ∈ b.jobs ∧ todo ⊆ b.jobs) ∧
      ∀ (k : Text) (r : TestResult), updates[k]? = some r → r.status = .failedToRun ∧ k ∈ b.keys
  | _ => True

variable {b}

theorem Batch.Homogeneous.resultKey_mem {j : ClaimedJob} (h : b.Homogeneous) (hj : j ∈ b.jobs) :
    j.payload.resultKey ∈ b.keys := by
  rw [h.resultKey hj]
  exact Batch.mem_keys_iff.mpr ⟨j, hj, rfl⟩

theorem key_mem_keys {st : Text} (h : st ∈ b.subtests) : b.key st ∈ b.keys :=
  List.mem_map.mpr ⟨st, h, rfl⟩

theorem mem_keys_of_mem_map {remaining : List Text} {k : Text} (h : remaining ⊆ b.subtests)
    (hk : k ∈ remaining.map b.key) : k ∈ b.keys := by
  obtain ⟨st, hst, rfl⟩ := List.mem_map.mp hk
  exact key_mem_keys (h hst)

theorem forall_insert {P : Text → TestResult → Prop} {m : TestResultsMap} {key : Text}
    {value : TestResult} (hm : ∀ k r, m[k]? = some r → P k r) (hnew : P key value) :
    ∀ k r, (m.insert key value)[k]? = some r → P k r := by
  intro k r hr
  rw [TextMap.getElem?_insert] at hr
  split_ifs at hr with hk
  · obtain rfl := Option.some.inj hr
    exact hk ▸ hnew
  · exact hm k r hr

theorem valid_resume {remaining : List Text} {didClean : Bool} {now : ℤ}
    (h : remaining ⊆ b.subtests) : Valid b (resume remaining didClean now) := by
  unfold resume
  split_ifs with hempty
  · trivial
  · exact ⟨mt List.isEmpty_iff.mpr hempty, h⟩

theorem mem_or_mem_insert {sts todo : List Text} {st : Text} {m : TestResultsMap} (r : TestResult)
    (h : ∀ st' ∈ sts, st' ∈ st :: todo ∨ b.key st' ∈ m) :
    ∀ st' ∈ sts, st' ∈ todo ∨ b.key st' ∈ m.insert (b.key st) r := by
  intro st' hst'
  rcases h st' hst' with hmem | hmem
  · rcases List.mem_cons.mp hmem with rfl | hmem
    · exact .inr (Std.ExtTreeMap.mem_insert_self)
    · exact .inl hmem
  · exact .inr (Std.ExtTreeMap.mem_insert.mpr (.inr hmem))

theorem Valid.exists_mark {now : ℤ} {marks : TestResultsMap} (h : Valid b (.marking [] now marks))
    {k : Text} (hk : k ∈ b.keys) : ∃ r, marks[k]? = some r ∧ r.status = .inprogress := by
  obtain ⟨-, hall, hmarks⟩ := h
  obtain ⟨st, hst, rfl⟩ := List.mem_map.mp hk
  rcases hall st hst with hmem | hmem
  · simp at hmem
  · obtain ⟨r, hr⟩ := TextMap.mem_iff_exists.mp hmem
    exact ⟨r, hr, (hmarks _ r hr).1⟩

theorem Valid.moves {s s' : TestResultsStore} {st st' : Stage} {e : Event} (h : Valid b st)
    (hb : b.Homogeneous) (hm : Moves b s st e s' st') : Valid b st' := by
  cases hm with
  | fatal | marked | setupFailed | superviseFailed | pullFailed | cleanFailed | succeed | failed =>
    trivial
  | start now =>
    exact ⟨fun _ h => h, fun st hst => .inl hst, by simp⟩
  | mark st todo now marks w =>
    obtain ⟨htodo, hall, hmarks⟩ := h
    refine ⟨fun st' hst' => htodo (List.mem_cons_of_mem st hst'), mem_or_mem_insert _ hall, ?_⟩
    exact forall_insert hmarks ⟨rfl, key_mem_keys (htodo List.mem_cons_self)⟩
  | setup outcome hsetup hok =>
    cases hsetup with
    | checkout | checkoutNoSync | syncKtest | buildSupervisor => trivial
    | prepare now => exact ⟨subtests_ne_nil b, fun _ h => h⟩
  | supervised remaining didClean now code => exact h
  | pulled remaining didClean now dirs =>
    exact ⟨h, fun _ h => h, by simp, fun st hst => .inl hst, by simp⟩
  | read st todo remaining next verdicts didClean now =>
    obtain ⟨hremaining, htodo, hnext, hall, hverdicts⟩ := h
    have hst : st ∈ remaining := htodo List.mem_cons_self
    refine ⟨hremaining, fun st' hst' => htodo (List.mem_cons_of_mem st hst'), ?_,
      mem_or_mem_insert _ hall, ?_⟩
    · split_ifs
      · intro st' hst'
        rcases List.mem_append.mp hst' with hst' | hst'
        · exact hnext hst'
        · exact List.mem_singleton.mp hst' ▸ hst
      · exact hnext
    · apply forall_insert
      · intro k r hr
        obtain ⟨hk, hin⟩ := hverdicts k r hr
        refine ⟨hk, fun hstatus => ?_⟩
        split_ifs
        · rw [List.map_append]
          exact List.mem_append_left _ (hin hstatus)
        · exact hin hstatus
      · refine ⟨List.mem_map.mpr ⟨st, hst, rfl⟩, fun hstatus => ?_⟩
        simp [hstatus]
  | recorded remaining next verdicts didClean now io =>
    obtain ⟨⟨hne, hremaining⟩, -, hnext, -, -⟩ := h
    unfold afterVerdicts
    split_ifs
    · trivial
    · exact ⟨hne, hremaining⟩
    · exact valid_resume (fun st hst => hremaining (hnext hst))
  | cleaned remaining now code => exact valid_resume h.2
  | fail now e => exact ⟨fun _ h => h, by simp⟩
  | lookupInprogress j todo updates now e hlookup =>
    obtain ⟨htodo, hupdates⟩ := h
    exact ⟨⟨htodo List.mem_cons_self, fun j' hj' => htodo (List.mem_cons_of_mem j hj')⟩, hupdates⟩
  | lookupOther j todo updates now e hlookup =>
    exact ⟨fun j' hj' => h.1 (List.mem_cons_of_mem j hj'), h.2⟩
  | failWrite j todo updates now e w =>
    obtain ⟨⟨hj, htodo⟩, hupdates⟩ := h
    exact ⟨htodo, forall_insert hupdates ⟨rfl, hb.resultKey_mem hj⟩⟩

theorem Moves.lookup_other {s s' : TestResultsStore} {st st' : Stage} {e : Event}
    (hm : Moves b s st e s' st') {c k : Text} (hc : b.commit ≠ c) : s'.lookup c k = s.lookup c k := by
  cases hm with
  | marked | recorded | failed =>
    exact TestResultsStore.lookup_update_of_ne (fun h => hc h.1)
  | _ => rfl

theorem mem_owed_resume {remaining : List Text} {didClean : Bool} {now : ℤ} {k : Text}
    (hk : k ∈ remaining.map b.key) : k ∈ owed b (resume remaining didClean now) := by
  unfold resume
  split_ifs with hempty
  · simp [List.isEmpty_iff.mp hempty] at hk
  · exact hk

theorem mem_owed_afterVerdicts {remaining next : List Text} {didClean : Bool} {now : ℤ} {k : Text}
    (hremaining : remaining ⊆ b.subtests) (hnext : next ⊆ remaining) (hk : k ∈ next.map b.key) :
    k ∈ owed b (afterVerdicts remaining next didClean now) := by
  obtain ⟨st, hst, rfl⟩ := List.mem_map.mp hk
  unfold afterVerdicts
  split_ifs
  · exact key_mem_keys (hremaining (hnext hst))
  · exact List.mem_map.mpr ⟨st, hnext hst, rfl⟩
  · exact mem_owed_resume hk

theorem Moves.ne_start {s s' : TestResultsStore} {st st' : Stage} {e : Event}
    (hm : Moves b s st e s' st') : st' ≠ .start := by
  have hresume (remaining : List Text) (didClean : Bool) (now : ℤ) :
      resume remaining didClean now ≠ .start := by
    unfold resume
    split_ifs <;> simp
  cases hm with
  | setup outcome hsetup hok => cases hsetup <;> simp
  | recorded remaining next verdicts didClean now io =>
    unfold afterVerdicts
    split_ifs
    · simp
    · simp
    · exact hresume next didClean now
  | cleaned remaining now code => exact hresume remaining true now
  | _ => simp

/-- Between updates of the store a batch forgets an owed key only when a lookup shows that it
is settled. -/
theorem Moves.mem_owed {s s' : TestResultsStore} {st st' : Stage} {e : Event} {k : Text}
    (hm : Moves b s st e s' st') (hvalid : Valid b st) (hb : b.Homogeneous)
    (he : ∀ io, e ≠ .update io) (hk : k ∈ owed b st)
    (hlookup : s.lookup b.commit k = some .inprogress) : k ∈ owed b st' := by
  cases hm with
  | fatal | start | mark | succeed => simp [owed] at hk
  | marked | recorded | failed => exact absurd rfl (he _)
  | setup outcome hsetup hok => cases hsetup <;> exact hk
  | setupFailed outcome e hsetup hfail => cases hsetup <;> exact hk
  | supervised | pulled | read => exact hk
  | superviseFailed | pullFailed | cleanFailed => exact mem_keys_of_mem_map hvalid.2 hk
  | cleaned remaining now code => exact mem_owed_resume hk
  | fail now e =>
    obtain ⟨j, hj, rfl⟩ := Batch.mem_keys_iff.mp hk
    exact List.mem_append_left _ (List.mem_map.mpr ⟨j, hj, hb.resultKey hj⟩)
  | lookupInprogress j todo updates now e h => simpa [owed] using hk
  | lookupOther j todo updates now e h =>
    have hne : k ≠ j.payload.resultKey := by
      rintro rfl
      exact h hlookup
    simpa [owed, hne] using hk
  | failWrite j todo updates now e w =>
    simp only [owed, List.cons_append, List.mem_cons, List.mem_append, Std.ExtTreeMap.mem_keys] at hk ⊢
    rcases hk with rfl | hk | hk
    · exact .inr Std.ExtTreeMap.mem_insert_self
    · exact .inl hk
    · exact .inr (Std.ExtTreeMap.mem_insert.mpr (.inr hk))

/-- After a step, a result in progress is owed by the batch that made the step, or it was in
progress before and not owed by this batch. -/
theorem Moves.owed_or {s s' : TestResultsStore} {st st' : Stage} {e : Event} {k : Text}
    (hm : Moves b s st e s' st') (hvalid : Valid b st) (hb : b.Homogeneous)
    (hk : s'.lookup b.commit k = some .inprogress) :
    k ∈ owed b st' ∨ (s.lookup b.commit k = some .inprogress ∧ k ∉ owed b st) := by
  have hquiet (he : ∀ io, e ≠ .update io) (hsame : s'.lookup b.commit k = s.lookup b.commit k) :
      k ∈ owed b st' ∨ (s.lookup b.commit k = some .inprogress ∧ k ∉ owed b st) := by
    rw [hsame] at hk
    by_cases howed : k ∈ owed b st
    · exact .inl (hm.mem_owed hvalid hb he howed hk)
    · exact .inr ⟨hk, howed⟩
  cases hm with
  | marked now marks io =>
    cases hmark : marks[k]? with
    | some r => exact .inl (hvalid.2.2 k r hmark).2
    | none =>
      have hnot : k ∉ marks := by simpa using hmark
      rw [TestResultsStore.lookup_update_of_ne (fun h => hnot h.2)] at hk
      exact .inr ⟨hk, by simp [owed]⟩
  | recorded remaining next verdicts didClean now io =>
    obtain ⟨⟨-, hremaining⟩, -, hnext, hall, hverdicts⟩ := hvalid
    cases hverdict : verdicts[k]? with
    | some r =>
      rw [TestResultsStore.lookup_update_of_some hverdict] at hk
      have hin := (hverdicts k r hverdict).2 (Option.some.inj hk)
      exact .inl (mem_owed_afterVerdicts hremaining hnext hin)
    | none =>
      have hnot : k ∉ verdicts := by simpa using hverdict
      rw [TestResultsStore.lookup_update_of_ne (fun h => hnot h.2)] at hk
      refine .inr ⟨hk, fun howed => ?_⟩
      obtain ⟨st, hst, rfl⟩ := List.mem_map.mp howed
      rcases hall st hst with hmem | hmem
      · simp at hmem
      · exact hnot hmem
  | failed updates now e io =>
    cases hupdate : updates[k]? with
    | some r =>
      rw [TestResultsStore.lookup_update_of_some hupdate, (hvalid.2 k r hupdate).1] at hk
      simp at hk
    | none =>
      have hnot : k ∉ updates := by simpa using hupdate
      rw [TestResultsStore.lookup_update_of_ne (fun h => hnot h.2)] at hk
      exact .inr ⟨hk, by simpa [owed] using hnot⟩
  | _ => exact hquiet (by simp) rfl

theorem mem_keys_of_mem_owed {st : Stage} {k : Text} (hvalid : Valid b st) (hb : b.Homogeneous)
    (hk : k ∈ owed b st) : k ∈ b.keys ∧ ∀ r, st ≠ .returned r := by
  have hjobs {todo : List ClaimedJob} {updates : TestResultsMap} (htodo : todo ⊆ b.jobs)
      (hupdates : ∀ (k : Text) (r : TestResult), updates[k]? = some r →
        r.status = .failedToRun ∧ k ∈ b.keys)
      (hk : k ∈ todo.map (fun j => j.payload.resultKey) ++ updates.keys) : k ∈ b.keys := by
    rcases List.mem_append.mp hk with hk | hk
    · obtain ⟨j, hj, rfl⟩ := List.mem_map.mp hk
      exact hb.resultKey_mem (htodo hj)
    · obtain ⟨r, hr⟩ := TextMap.mem_iff_exists.mp (Std.ExtTreeMap.mem_keys.mp hk)
      exact (hupdates k r hr).2
  cases st with
  | start | marking | returned => simp [owed] at hk
  | checkout | syncKtest | buildSupervisor | prepare => exact ⟨hk, by simp⟩
  | supervise | pulling | cleaning => exact ⟨mem_keys_of_mem_map hvalid.2 hk, by simp⟩
  | collecting => exact ⟨mem_keys_of_mem_map hvalid.1.2 hk, by simp⟩
  | teardown result =>
    cases result with
    | none => simp [owed] at hk
    | some e => exact ⟨hk, by simp⟩
  | failing todo updates now e => exact ⟨hjobs hvalid.1 hvalid.2 hk, by simp⟩
  | failWrite job todo updates now e =>
    refine ⟨?_, by simp⟩
    rcases List.mem_cons.mp hk with rfl | hk
    · exact hb.resultKey_mem hvalid.1.1
    · exact hjobs hvalid.1.2 hvalid.2 hk

end BatchRun
end KtestCi
