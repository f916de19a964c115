import KtestCi.JobMatrix
import Mathlib.Algebra.Order.Ring.Int

/-!
# What `desired_jobs` returns

The list is ordered by exact weight and the tie-breakers, has one job per key, and that
job is a best one for its key. A wanted job is missing only when the list is full of jobs
that are no worse.
-/

namespace KtestCi

def exactWeight (j : Job) : ℤ := j.age + j.nice.toInt

/-- `jobCmp` with exact weights. -/
def exactCmp : Job → Job → Ordering :=
  compareLex (compareOn exactWeight) <| compareLex (compareOn (fun j => j.key.commit)) <|
    compareLex (compareOn (fun j => j.key.test)) <| compareLex (compareOn (fun j => j.key.kernel)) <|
    compareLex (compareOn (fun j => j.key.env)) (compareOn Job.duration)

def WeightsFit (hints : JobHints) (specs : List TestSpec) : Prop :=
  ∀ spec age commit subtest kernel, IsCell specs spec age commit subtest kernel →
    -2 ^ 63 ≤ exactWeight (cellJob hints spec age commit subtest kernel) ∧
      exactWeight (cellJob hints spec age commit subtest kernel) < 2 ^ 63

theorem toInt_jobWeight {j : Job} (hl : -2 ^ 63 ≤ exactWeight j) (hu : exactWeight j < 2 ^ 63) :
    (jobWeight j).toInt = exactWeight j := by
  unfold exactWeight at hl hu ⊢
  rw [jobWeight, Int64.toInt_add, Int64.toInt_ofNat', Int.bmod_add_bmod]
  apply Int.bmod_eq_of_le
  · exact le_trans (by decide) hl
  · exact lt_of_lt_of_le hu (by decide)

theorem compare_int64 (a b : Int64) : compare a b = compare a.toInt b.toInt := by
  change compareOfLessAndEq a b = compareOfLessAndEq a.toInt b.toInt
  unfold compareOfLessAndEq
  simp only [Int64.lt_iff_toInt_lt, ← Int64.toInt_inj]

theorem jobCmp_eq_exactCmp {a b : Job} (ha : (jobWeight a).toInt = exactWeight a)
    (hb : (jobWeight b).toInt = exactWeight b) : jobCmp a b = exactCmp a b := by
  unfold jobCmp exactCmp
  simp only [compareLex, compareOn, compare_int64, ha, hb]

/-- A job that is not behind another has no larger weight. -/
theorem exactWeight_le_of_exactCmp {a b : Job} (h : (exactCmp a b).isLE = true) :
    exactWeight a ≤ exactWeight b := by
  by_contra hlt
  have hgt : compare (exactWeight a) (exactWeight b) = .gt := by
    rw [Int.compare_eq_gt]
    omega
  simp [exactCmp, compareLex, compareOn, hgt] at h

instance : Std.TransCmp jobCmp := by
  unfold jobCmp
  infer_instance

/-- The relation by which the candidates are sorted. -/
def Before (a b : Job) : Prop := (jobCmp a b).isLE = true

instance : DecidableRel Before := fun a b => inferInstanceAs (Decidable ((jobCmp a b).isLE = true))

theorem Before.refl (a : Job) : Before a a := by
  simp [Before, Std.ReflCmp.compare_self]

theorem Before.trans {a b c : Job} (hab : Before a b) (hbc : Before b c) : Before a c :=
  Std.TransCmp.isLE_trans hab hbc

theorem Before.total (a b : Job) : Before a b ∨ Before b a := by
  have hswap : jobCmp b a = (jobCmp a b).swap := Std.OrientedCmp.eq_swap
  unfold Before
  rw [hswap]
  cases jobCmp a b <;> simp

def sortedCandidates (hints : JobHints) (results : Text → TestResultsMap) (specs : List TestSpec) :
    List Job :=
  (candidates hints results specs).insertionSort (fun a b => (jobCmp a b).isLE)

theorem desiredJobsOf_eq (hints : JobHints) (results : Text → TestResultsMap)
    (specs : List TestSpec) (limit : ℕ) : desiredJobsOf hints results specs limit =
      (RetainFirst.retainFirst Job.key (sortedCandidates hints results specs)).take limit := rfl

variable {hints : JobHints} {results : Text → TestResultsMap} {specs : List TestSpec} {limit : ℕ}

theorem sortedCandidates_pairwise : (sortedCandidates hints results specs).Pairwise Before := by
  have : Std.Total Before := ⟨Before.total⟩
  have : IsTrans Job Before := ⟨fun _ _ _ => Before.trans⟩
  exact List.pairwise_insertionSort Before (candidates hints results specs)

theorem mem_sortedCandidates {j : Job} :
    j ∈ sortedCandidates hints results specs ↔ j ∈ candidates hints results specs :=
  (List.perm_insertionSort _ _).mem_iff

theorem mem_candidates_of_mem_desiredJobsOf {j : Job}
    (h : j ∈ desiredJobsOf hints results specs limit) : j ∈ candidates hints results specs := by
  rw [desiredJobsOf_eq] at h
  exact mem_sortedCandidates.mp
    (RetainFirst.mem_of_mem_retainFirst Job.key (List.mem_of_mem_take h))

theorem exists_mem_desiredJobsOf (hlimit : (candidates hints results specs).length ≤ limit) {j : Job}
    (hj : j ∈ candidates hints results specs) :
    ∃ j' ∈ desiredJobsOf hints results specs limit, j'.key = j.key := by
  obtain ⟨j', hj', hkey, -⟩ := RetainFirst.exists_retainFirst Job.key Before.refl
    sortedCandidates_pairwise (mem_sortedCandidates.mpr hj)
  have hlen : (RetainFirst.retainFirst Job.key (sortedCandidates hints results specs)).length ≤ limit :=
    calc (RetainFirst.retainFirst Job.key (sortedCandidates hints results specs)).length
        ≤ (sortedCandidates hints results specs).length :=
          (RetainFirst.retainFirst_sublist Job.key _).length_le
      _ = (candidates hints results specs).length := (List.perm_insertionSort _ _).length_eq
      _ ≤ limit := hlimit
  refine ⟨j', ?_, hkey⟩
  rw [desiredJobsOf_eq, List.take_of_length_le hlen]
  exact hj'

/-- Cells with one key are wanted together: they read the same entry of the results. -/
theorem mem_candidates_of_key {spec : TestSpec} {age : ℕ} {commit subtest kernel : Text} {j : Job}
    (hcell : IsCell specs spec age commit subtest kernel)
    (hkey : (cellJob hints spec age commit subtest kernel).key = j.key)
    (hw : jobWanted (recorded results j.key) = true) :
    cellJob hints spec age commit subtest kernel ∈ candidates hints results specs :=
  mem_candidates_iff.mpr ⟨spec, age, commit, subtest, kernel, hcell, rfl, hkey ▸ hw⟩

theorem exactWeight_le_of_before (hfit : WeightsFit hints specs) {a b : Job}
    (ha : a ∈ candidates hints results specs) (hb : b ∈ candidates hints results specs)
    (h : Before a b) : exactWeight a ≤ exactWeight b ∧ (exactCmp a b).isLE = true := by
  have hexact {j : Job} (hj : j ∈ candidates hints results specs) :
      (jobWeight j).toInt = exactWeight j := by
    obtain ⟨spec, age, commit, subtest, kernel, hcell, rfl, -⟩ := mem_candidates_iff.mp hj
    obtain ⟨hl, hu⟩ := hfit spec age commit subtest kernel hcell
    exact toInt_jobWeight hl hu
  have hcmp : (exactCmp a b).isLE = true := by
    rw [← jobCmp_eq_exactCmp (hexact ha) (hexact hb)]
    exact h
  exact ⟨exactWeight_le_of_exactCmp hcmp, hcmp⟩

structure DesiredJobs (hints : JobHints) (results : Text → TestResultsMap) (specs : List TestSpec)
    (limit : ℕ) (js : List Job) : Prop where
  sorted : js.Pairwise (fun a b => (exactCmp a b).isLE = true)
  nodup : (js.map Job.key).Nodup
  wanted : ∀ j ∈ js, ∃ spec age commit subtest kernel,
    IsCell specs spec age commit subtest kernel ∧ j = cellJob hints spec age commit subtest kernel ∧
      (recorded results j.key = none ∨ recorded results j.key = some .unknown)
  minimal : ∀ j ∈ js, ∀ spec age commit subtest kernel,
    IsCell specs spec age commit subtest kernel →
      (cellJob hints spec age commit subtest kernel).key = j.key →
        exactWeight j ≤ exactWeight (cellJob hints spec age commit subtest kernel)
  length_le : js.length ≤ limit
  complete : ∀ k, (∃ spec age commit subtest kernel, IsCell specs spec age commit subtest kernel ∧
      (cellJob hints spec age commit subtest kernel).key = k) →
    (recorded results k = none ∨ recorded results k = some .unknown) → (∀ j ∈ js, j.key ≠ k) →
      js.length = limit ∧ ∀ j ∈ js, ∀ spec age commit subtest kernel,
        IsCell specs spec age commit subtest kernel →
          (cellJob hints spec age commit subtest kernel).key = k →
            exactWeight j ≤ exactWeight (cellJob hints spec age commit subtest kernel)

/-- `desired_jobs` meets its contract whenever no weight overflows. -/
theorem desiredJobsOf_spec (hints : JobHints) (results : Text → TestResultsMap)
    (specs : List TestSpec) (limit : ℕ) (hfit : WeightsFit hints specs) :
    DesiredJobs hints results specs limit (desiredJobsOf hints results specs limit) where
  sorted := by
    rw [desiredJobsOf_eq]
    have hpair := (@sortedCandidates_pairwise hints results specs).sublist
      ((List.take_sublist limit _).trans (RetainFirst.retainFirst_sublist Job.key _))
    refine hpair.imp_of_mem ?_
    intro a b ha hb hab
    have hmem {j : Job} (hj : j ∈ (RetainFirst.retainFirst Job.key
        (sortedCandidates hints results specs)).take limit) : j ∈ candidates hints results specs :=
      mem_candidates_of_mem_desiredJobsOf hj
    exact (exactWeight_le_of_before hfit (hmem ha) (hmem hb) hab).2
  nodup := by
    rw [desiredJobsOf_eq]
    exact (RetainFirst.retainFirst_nodup Job.key _).sublist ((List.take_sublist limit _).map _)
  wanted := by
    intro j hj
    obtain ⟨spec, age, commit, subtest, kernel, hcell, he, hw⟩ :=
      mem_candidates_iff.mp (mem_candidates_of_mem_desiredJobsOf hj)
    exact ⟨spec, age, commit, subtest, kernel, hcell, he, (jobWanted_iff _).mp hw⟩
  minimal := by
    intro j hj spec age commit subtest kernel hcell hkey
    have hj' := mem_candidates_of_mem_desiredJobsOf hj
    obtain ⟨-, -, -, -, -, -, -, hw⟩ := mem_candidates_iff.mp hj'
    have hc := mem_candidates_of_key hcell hkey hw
    refine (exactWeight_le_of_before hfit hj' hc ?_).1
    rw [desiredJobsOf_eq] at hj
    exact RetainFirst.retainFirst_le Job.key Before.refl sortedCandidates_pairwise
      (List.mem_of_mem_take hj) (mem_sortedCandidates.mpr hc) hkey
  length_le := by
    rw [desiredJobsOf_eq]
    exact List.length_take_le _ _
  complete := by
    rintro k ⟨spec, age, commit, subtest, kernel, hcell, hkey⟩ hk hmissing
    have hfull {spec : TestSpec} {age : ℕ} {commit subtest kernel : Text}
        (hcell : IsCell specs spec age commit subtest kernel)
        (hkey : (cellJob hints spec age commit subtest kernel).key = k) :
        (desiredJobsOf hints results specs limit).length = limit ∧
          ∀ j ∈ desiredJobsOf hints results specs limit,
            exactWeight j ≤ exactWeight (cellJob hints spec age commit subtest kernel) := by
      have hc : cellJob hints spec age commit subtest kernel ∈ candidates hints results specs :=
        mem_candidates_of_key hcell rfl (hkey ▸ (jobWanted_iff _).mpr hk)
      have htake := RetainFirst.take_full_of_missing Job.key Before.refl
        (fun _ _ _ => Before.trans) sortedCandidates_pairwise limit (mem_sortedCandidates.mpr hc)
        (fun j hj heq => hmissing j hj (heq.trans hkey))
      rw [desiredJobsOf_eq]
      refine ⟨htake.1, fun j hj => ?_⟩
      exact (exactWeight_le_of_before hfit (mem_candidates_of_mem_desiredJobsOf hj) hc
        (htake.2 j hj)).1
    refine ⟨(hfull hcell hkey).1, ?_⟩
    intro j hj spec' age' commit' subtest' kernel' hcell' hkey'
    exact (hfull hcell' hkey').2 j hj

def sharedCommitSpecs : List TestSpec :=
  let spec (nice : UInt64) (commits : List Text) : TestSpec :=
    ⟨"user".toList, "linux".toList, "boot.ktest".toList, [],
      ⟨50, nice, 180, 10, ["boot.ktest".toList], [], ∅⟩, ["boot".toList], [[]], commits⟩
  [spec 0 ["a".toList, "b".toList], spec 3 ["b".toList]]

theorem desiredJobsOf_spec_sharedCommit :
    DesiredJobs ⟨none, 30⟩ (fun _ => ∅) sharedCommitSpecs 2000
      (desiredJobsOf ⟨none, 30⟩ (fun _ => ∅) sharedCommitSpecs 2000) := by
  apply desiredJobsOf_spec
  intro spec age commit subtest kernel hcell
  obtain ⟨hlt, -⟩ := List.getElem?_eq_some_iff.mp hcell.commit_at
  have hspec := hcell.spec_mem
  simp only [sharedCommitSpecs, List.mem_cons, List.not_mem_nil, or_false] at hspec
  have h0 : (UInt64.toInt64 0).toInt = 0 := by decide
  have h3 : (UInt64.toInt64 3).toInt = 3 := by decide
  rcases hspec with rfl | rfl
  · simp only [List.length_cons, List.length_nil] at hlt
    simp only [exactWeight, cellJob, testStats, jobNice, h0]
    omega
  · simp only [List.length_cons, List.length_nil] at hlt
    simp only [exactWeight, cellJob, testStats, jobNice, h3]
    omega

end KtestCi
