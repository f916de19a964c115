import KtestCi.JobMatrix
import Mathlib.Algebra.Ring.Nat

/-!
# The history of a subtest

`gen-avg-duration` adds up the results of every commit, key by key, and writes one entry for
each key in the order of the keys; `test_stats` looks a key up by halving. The counters are
64-bit, so what is read back is the true history as long as the sums fit.
-/

namespace KtestCi

structure TestDuration where
  secs : UInt64
  nr : UInt64
  nrPassed : UInt64
  nrFailed : UInt64

abbrev TestDurationMap := TextMap TestDuration

namespace TestDuration

def zero : TestDuration := ⟨0, 0, 0, 0⟩

def add (t : TestDuration) (r : TestResult) : TestDuration where
  secs := t.secs + r.duration
  nr := t.nr + 1
  nrPassed := t.nrPassed + if r.status = .passed then 1 else 0
  nrFailed := t.nrFailed + if r.status = .failed then 1 else 0

/-- The entry written for a key. The average divides by the number of results. -/
def entry (test : Text) (t : TestDuration) : Option Duration :=
  if t.nr = 0 then none else some ⟨test, t.nr, t.nrPassed, t.nrFailed, t.secs / t.nr⟩

end TestDuration

/-- One round of the inner loop of `read_duration_sums`. -/
def addResult (durations : TestDurationMap) (kr : Text × TestResult) : TestDurationMap :=
  durations.insert kr.1 ((durations[kr.1]?.getD .zero).add kr.2)

/-- `read_duration_sums` on the results of the commits, in the order of the directory. -/
def readDurationSums (commits : List TestResultsMap) : TestDurationMap :=
  commits.foldl (fun durations m => m.toList.foldl addResult durations) ∅

/-- The entries of the durations file; `none` if an average divides by zero. -/
def writeDurationsCapnp (durations : TestDurationMap) : Option (List Duration) :=
  durations.toList.mapM (fun kt => kt.2.entry kt.1)

def history (commits : List TestResultsMap) (key : Text) : List TestResult :=
  commits.filterMap (fun m => m[key]?)

/-- Adding a list of results to the sums of a key, which may not be there yet. -/
def TestDuration.addAll (t : Option TestDuration) (rs : List TestResult) : Option TestDuration :=
  rs.foldl (fun t r => some ((t.getD .zero).add r)) t

theorem getElem?_foldl_addResult (krs : List (Text × TestResult)) (durations : TestDurationMap)
    (key : Text) :
    (krs.foldl addResult durations)[key]? = TestDuration.addAll durations[key]?
      (krs.filterMap (fun kr => if kr.1 = key then some kr.2 else none)) := by
  induction krs generalizing durations with
  | nil => rfl
  | cons kr krs ih =>
    rw [List.foldl_cons, ih, addResult, TextMap.getElem?_insert]
    by_cases hkey : kr.1 = key
    · simp [hkey, TestDuration.addAll]
    · simp [hkey]

theorem filterMap_toList_eq (m : TestResultsMap) (key : Text) :
    m.toList.filterMap (fun kr => if kr.1 = key then some kr.2 else none) = m[key]?.toList := by
  have hnone : ∀ krs : List (Text × TestResult), (∀ kr ∈ krs, kr.1 ≠ key) →
      krs.filterMap (fun kr => if kr.1 = key then some kr.2 else none) = [] := by
    intro krs h
    simpa using h
  cases hr : m[key]? with
  | none =>
    refine hnone _ (fun kr hmem heq => ?_)
    have hkr := Std.ExtTreeMap.mem_toList_iff_getElem?_eq_some.mp hmem
    rw [heq, hr] at hkr
    simp at hkr
  | some r =>
    have hmem : (key, r) ∈ m.toList := Std.ExtTreeMap.mem_toList_iff_getElem?_eq_some.mpr hr
    obtain ⟨before, after, hsplit⟩ := List.append_of_mem hmem
    have hdistinct := m.distinct_keys_toList
    rw [hsplit, List.pairwise_append] at hdistinct
    obtain ⟨-, hafter, hbefore⟩ := hdistinct
    rw [hsplit, List.filterMap_append, List.filterMap_cons, hnone before, hnone after]
    · simp
    · exact fun kr hkr heq => (List.pairwise_cons.mp hafter).1 kr hkr (by simp [heq])
    · exact fun kr hkr heq => hbefore kr hkr (key, r) (by simp) (by simp [heq])

theorem TestDuration.addAll_append (t : Option TestDuration) (rs rs' : List TestResult) :
    addAll t (rs ++ rs') = addAll (addAll t rs) rs' := List.foldl_append

/-- The sums for a key are those of its history. -/
theorem getElem?_readDurationSums (commits : List TestResultsMap) (key : Text) :
    (readDurationSums commits)[key]? = TestDuration.addAll none (history commits key) := by
  have hfold : ∀ durations : TestDurationMap,
      (commits.foldl (fun durations m => m.toList.foldl addResult durations) durations)[key]? =
        TestDuration.addAll durations[key]? (history commits key) := by
    induction commits with
    | nil => exact fun _ => rfl
    | cons m commits ih =>
      intro durations
      rw [List.foldl_cons, ih, getElem?_foldl_addResult, filterMap_toList_eq,
        ← TestDuration.addAll_append]
      cases hr : m[key]? <;> simp [history, hr]
  exact hfold ∅

def secsSum (rs : List TestResult) : ℕ := rs.foldr (fun r n => r.duration.toNat + n) 0

def nrOf (status : TestStatus) (rs : List TestResult) : ℕ := rs.countP (fun r => r.status = status)

/-- The sums of a history, modulo the width of the counters. -/
def TestDuration.total (rs : List TestResult) : TestDuration where
  secs := UInt64.ofNat (secsSum rs)
  nr := UInt64.ofNat rs.length
  nrPassed := UInt64.ofNat (nrOf .passed rs)
  nrFailed := UInt64.ofNat (nrOf .failed rs)

theorem TestDuration.foldl_add (rs : List TestResult) (t : TestDuration) :
    rs.foldl add t = ⟨t.secs + (total rs).secs, t.nr + (total rs).nr,
      t.nrPassed + (total rs).nrPassed, t.nrFailed + (total rs).nrFailed⟩ := by
  induction rs generalizing t with
  | nil => simp [total, secsSum, nrOf]
  | cons r rs ih =>
    have hcount : ∀ status, UInt64.ofNat (nrOf status (r :: rs)) =
        (if r.status = status then 1 else 0) + UInt64.ofNat (nrOf status rs) := by
      intro status
      by_cases h : r.status = status
      · simp [nrOf, h, UInt64.ofNat_add, UInt64.add_comm]
      · simp [nrOf, h]
    rw [List.foldl_cons, ih]
    simp [total, add, hcount, secsSum, UInt64.ofNat_add, UInt64.add_assoc, UInt64.add_comm 1]

theorem TestDuration.addAll_none (rs : List TestResult) :
    addAll none rs = if rs = [] then none else some (total rs) := by
  have hsome : ∀ (rs : List TestResult) (t : TestDuration), addAll (some t) rs = some (rs.foldl add t) := by
    intro rs
    induction rs with
    | nil => exact fun _ => rfl
    | cons r rs ih => exact fun t => ih (t.add r)
  cases rs with
  | nil => rfl
  | cons r rs =>
    have hfirst : addAll none (r :: rs) = addAll (some (zero.add r)) rs := rfl
    rw [hfirst, hsome, if_neg (by simp), ← List.foldl_cons, foldl_add]
    simp [zero]

theorem toNat_ofNat_of_lt {n : ℕ} (h : n < 2 ^ 64) : (UInt64.ofNat n).toNat = n := by
  rw [UInt64.toNat_ofNat', Nat.mod_eq_of_lt h]

theorem TestDuration.nr_total_ne_zero {rs : List TestResult} (hne : rs ≠ [])
    (hlt : rs.length < 2 ^ 64) : (total rs).nr ≠ 0 := by
  intro hzero
  have hlength : (UInt64.ofNat rs.length).toNat = 0 := congrArg UInt64.toNat hzero
  rw [toNat_ofNat_of_lt hlt] at hlength
  exact hne (List.length_eq_zero_iff.mp hlength)

theorem history_length_le (commits : List TestResultsMap) (key : Text) :
    (history commits key).length ≤ commits.length := List.length_filterMap_le _ _

def durationOf (key : Text) (rs : List TestResult) : Duration :=
  let t := TestDuration.total rs
  ⟨key, t.nr, t.nrPassed, t.nrFailed, t.secs / t.nr⟩

/-- The file has the keys of the commits in their order, each with its history. -/
structure FileOf (commits : List TestResultsMap) (file : List Duration) : Prop where
  sorted : file.Pairwise (fun a b => compare a.test b.test = .lt)
  history_ne_nil : ∀ d ∈ file, history commits d.test ≠ []
  entry_eq : ∀ d ∈ file, d = durationOf d.test (history commits d.test)
  exists_entry : ∀ key, history commits key ≠ [] → ∃ d ∈ file, d.test = key

theorem TestDuration.entry_eq_some_iff (kt : Text × TestDuration) (d : Duration) :
    kt.2.entry kt.1 = some d ↔
      kt.2.nr ≠ 0 ∧ d = ⟨kt.1, kt.2.nr, kt.2.nrPassed, kt.2.nrFailed, kt.2.secs / kt.2.nr⟩ := by
  unfold entry
  split_ifs with h
  · simp [h]
  · simp [h, eq_comm]

theorem mem_readDurationSums_iff {commits : List TestResultsMap} {kt : Text × TestDuration} :
    kt ∈ (readDurationSums commits).toList ↔
      history commits kt.1 ≠ [] ∧ kt.2 = TestDuration.total (history commits kt.1) := by
  rw [Std.ExtTreeMap.mem_toList_iff_getElem?_eq_some, getElem?_readDurationSums,
    TestDuration.addAll_none]
  split_ifs with h
  · simp [h]
  · simp [h, eq_comm]

/-- No average divides by zero. -/
theorem writeDurationsCapnp_spec {commits : List TestResultsMap} (hlt : commits.length < 2 ^ 64) :
    ∃ file, writeDurationsCapnp (readDurationSums commits) = some file ∧ FileOf commits file := by
  have hnr : ∀ kt ∈ (readDurationSums commits).toList, kt.2.nr ≠ 0 := by
    intro kt hkt
    obtain ⟨hne, htotal⟩ := mem_readDurationSums_iff.mp hkt
    rw [htotal]
    exact TestDuration.nr_total_ne_zero hne (lt_of_le_of_lt (history_length_le _ _) hlt)
  refine ⟨_, (TextMap.mapM_eq_some_iff TestDuration.entry_eq_some_iff _ _).mpr ⟨hnr, rfl⟩, ?_, ?_, ?_, ?_⟩
  · exact List.pairwise_map.mpr (readDurationSums commits).ordered_keys_toList
  · rintro d hd
    obtain ⟨kt, hkt, rfl⟩ := List.mem_map.mp hd
    exact (mem_readDurationSums_iff.mp hkt).1
  · rintro d hd
    obtain ⟨kt, hkt, rfl⟩ := List.mem_map.mp hd
    obtain ⟨-, htotal⟩ := mem_readDurationSums_iff.mp hkt
    simp [durationOf, htotal]
  · intro key hne
    have hmem : (key, TestDuration.total (history commits key)) ∈ (readDurationSums commits).toList :=
      mem_readDurationSums_iff.mpr ⟨hne, rfl⟩
    exact ⟨_, List.mem_map.mpr ⟨_, hmem, rfl⟩, rfl⟩

def Duration.stats (d : Duration) : TestStats := ⟨d.nr, d.passed, d.failed, d.duration⟩

def scanDurations (entries : List Duration) (key : Text) : Option TestStats :=
  (entries.find? (fun d => d.test = key)).map Duration.stats

/-- Where the key lies, seen from outside the interval of the search. -/
structure Brackets (entries : List Duration) (key : Text) (l r : ℕ) : Prop where
  le_length : r ≤ entries.length
  below : ∀ i < l, ∀ d, entries[i]? = some d → compare key d.test = .gt
  above : ∀ i, r ≤ i → ∀ d, entries[i]? = some d → compare key d.test = .lt

section Search

variable {entries : List Duration} {key : Text} {l r m : ℕ} {d : Duration}

theorem compare_test_of_lt (hsorted : entries.Pairwise (fun a b => compare a.test b.test = .lt))
    {i j : ℕ} (hij : i < j) {a b : Duration} (ha : entries[i]? = some a) (hb : entries[j]? = some b) :
    compare a.test b.test = .lt := by
  obtain ⟨hi, rfl⟩ := List.getElem?_eq_some_iff.mp ha
  obtain ⟨hj, rfl⟩ := List.getElem?_eq_some_iff.mp hb
  exact List.pairwise_iff_getElem.mp hsorted i j hi hj hij

theorem Brackets.left (hsorted : entries.Pairwise (fun a b => compare a.test b.test = .lt))
    (h : Brackets entries key l r) (hm : m < r) (hd : entries[m]? = some d)
    (hcmp : compare key d.test = .lt) : Brackets entries key l m where
  le_length := hm.le.trans h.le_length
  below := h.below
  above := by
    intro i hi a ha
    rcases Nat.eq_or_lt_of_le hi with rfl | hi
    · obtain rfl := Option.some.inj (hd.symm.trans ha)
      exact hcmp
    · exact Std.TransCmp.lt_trans hcmp (compare_test_of_lt hsorted hi hd ha)

theorem Brackets.right (hsorted : entries.Pairwise (fun a b => compare a.test b.test = .lt))
    (h : Brackets entries key l r) (hd : entries[m]? = some d) (hcmp : compare key d.test = .gt) :
    Brackets entries key (m + 1) r where
  le_length := h.le_length
  below := by
    intro i hi a ha
    rcases Nat.eq_or_lt_of_le (Nat.lt_succ_iff.mp hi) with rfl | hi
    · obtain rfl := Option.some.inj (hd.symm.trans ha)
      exact hcmp
    · exact Std.TransCmp.gt_trans hcmp
        (Std.OrientedCmp.gt_iff_lt.mpr (compare_test_of_lt hsorted hi ha hd))
  above := h.above

theorem Brackets.scan_eq_none (h : Brackets entries key l r) (hle : r ≤ l) :
    scanDurations entries key = none := by
  rw [scanDurations, Option.map_eq_none_iff, List.find?_eq_none]
  intro d hd
  obtain ⟨i, hi⟩ := List.mem_iff_getElem?.mp hd
  rw [decide_eq_true_eq]
  rintro rfl
  rcases lt_or_ge i l with hil | hil
  · simpa using h.below i hil d hi
  · simpa using h.above i (hle.trans hil) d hi

theorem scan_eq_some (hsorted : entries.Pairwise (fun a b => compare a.test b.test = .lt))
    (hd : entries[m]? = some d) : scanDurations entries d.test = some d.stats := by
  have hmem : ∃ a ∈ entries, decide (a.test = d.test) = true :=
    ⟨d, List.mem_of_getElem? hd, by simp⟩
  obtain ⟨a, ha⟩ := Option.isSome_iff_exists.mp (List.find?_isSome.mpr hmem)
  have htest : a.test = d.test := by simpa using List.find?_some ha
  obtain ⟨i, hi⟩ := List.mem_iff_getElem?.mp (List.mem_of_find?_eq_some ha)
  rw [scanDurations, ha, Option.map_some]
  rcases Nat.lt_trichotomy i m with him | rfl | him
  · have hlt := compare_test_of_lt hsorted him hi hd
    simp [htest] at hlt
  · rw [Option.some.inj (hi.symm.trans hd)]
  · have hlt := compare_test_of_lt hsorted him hd hi
    simp [htest] at hlt

/-- On a sorted list of entries the binary search finds what the scan finds. -/
theorem searchDurations_eq_scan (hsorted : entries.Pairwise (fun a b => compare a.test b.test = .lt))
    (key : Text) (fuel l r : ℕ) (hfuel : r - l ≤ fuel) (h : Brackets entries key l r) :
    searchDurations entries key fuel l r = scanDurations entries key := by
  induction fuel generalizing l r with
  | zero => exact (h.scan_eq_none (by omega)).symm
  | succ fuel ih =>
    rw [searchDurations]
    split_ifs with hlr
    · have hm : l + (r - l) / 2 < r := by omega
      obtain ⟨d, hd⟩ : ∃ d, entries[l + (r - l) / 2]? = some d :=
        ⟨_, List.getElem?_eq_getElem (hm.trans_le h.le_length)⟩
      simp only [hd]
      cases hcmp : compare key d.test with
      | lt => exact ih _ _ (by omega) (h.left hsorted hm hd hcmp)
      | gt => exact ih _ _ (by omega) (h.right hsorted hd hcmp)
      | eq =>
        obtain rfl := Std.LawfulEqCmp.eq_of_compare hcmp
        exact (scan_eq_some hsorted hd).symm
    · exact (h.scan_eq_none (by omega)).symm

end Search

theorem FileOf.scan_eq {commits : List TestResultsMap} {file : List Duration} (h : FileOf commits file)
    (key : Text) : scanDurations file key =
      if history commits key = [] then none else some (durationOf key (history commits key)).stats := by
  split_ifs with hnil
  · rw [scanDurations, Option.map_eq_none_iff, List.find?_eq_none]
    intro d hd
    rw [decide_eq_true_eq]
    rintro rfl
    exact h.history_ne_nil d hd hnil
  · obtain ⟨d, hd, rfl⟩ := h.exists_entry key hnil
    obtain ⟨i, hi⟩ := List.mem_iff_getElem?.mp hd
    rw [scan_eq_some h.sorted hi, ← h.entry_eq d hd]

theorem FileOf.testStats_eq_scan {commits : List TestResultsMap} {file : List Duration}
    (h : FileOf commits file) (test subtest kernel env : Text) :
    testStats (some file) test subtest kernel env =
      scanDurations file (subtestResultKey test subtest kernel env) := by
  refine searchDurations_eq_scan h.sorted _ _ _ _ (by omega) ⟨le_rfl, by omega, ?_⟩
  intro i hi d hd
  rw [List.getElem?_eq_none hi] at hd
  simp at hd

theorem history_eq_nil_iff (commits : List TestResultsMap) (key : Text) :
    history commits key = [] ↔ ∀ m ∈ commits, key ∉ m := by
  simp [history, List.filterMap_eq_nil_iff]

structure StatsOf (rs : List TestResult) (st : TestStats) : Prop where
  nr : st.nr.toNat = rs.length
  passed : st.passed.toNat = nrOf .passed rs
  failed : st.failed.toNat = nrOf .failed rs
  duration : st.duration.toNat = secsSum rs / rs.length

theorem nrOf_le_length (status : TestStatus) (rs : List TestResult) : nrOf status rs ≤ rs.length :=
  List.countP_le_length

theorem statsOf_durationOf (key : Text) {rs : List TestResult} (hlength : rs.length < 2 ^ 64)
    (hsecs : secsSum rs < 2 ^ 64) : StatsOf rs (durationOf key rs).stats where
  nr := toNat_ofNat_of_lt hlength
  passed := toNat_ofNat_of_lt (lt_of_le_of_lt (nrOf_le_length _ rs) hlength)
  failed := toNat_ofNat_of_lt (lt_of_le_of_lt (nrOf_le_length _ rs) hlength)
  duration := by
    have hdiv : (durationOf key rs).stats.duration =
        UInt64.ofNat (secsSum rs) / UInt64.ofNat rs.length := rfl
    rw [hdiv, UInt64.toNat_div, toNat_ofNat_of_lt hsecs, toNat_ofNat_of_lt hlength]

/-- What is looked up in the durations file is the history of the key over all commits. -/
theorem testStats_eq_history (commits : List TestResultsMap) (hcommits : commits.length < 2 ^ 64)
    (hsecs : ∀ key, secsSum (history commits key) < 2 ^ 64) :
    ∃ file, writeDurationsCapnp (readDurationSums commits) = some file ∧
      ∀ test subtest kernel env,
        testStats (some file) test subtest kernel env =
          scanDurations file (subtestResultKey test subtest kernel env) ∧
        (testStats (some file) test subtest kernel env = none ↔
          ∀ m ∈ commits, subtestResultKey test subtest kernel env ∉ m) ∧
        ((∃ m ∈ commits, subtestResultKey test subtest kernel env ∈ m) →
          ∃ st, testStats (some file) test subtest kernel env = some st ∧
            StatsOf (history commits (subtestResultKey test subtest kernel env)) st) := by
  obtain ⟨file, hwrite, hfile⟩ := writeDurationsCapnp_spec hcommits
  refine ⟨file, hwrite, fun test subtest kernel env => ⟨hfile.testStats_eq_scan _ _ _ _, ?_, ?_⟩⟩
  · rw [hfile.testStats_eq_scan, hfile.scan_eq, ← history_eq_nil_iff]
    split_ifs with hnil <;> simp [hnil]
  · rintro ⟨m, hm, hkey⟩
    have hne : history commits (subtestResultKey test subtest kernel env) ≠ [] := by
      rw [ne_eq, history_eq_nil_iff]
      exact fun hnone => hnone m hm hkey
    rw [hfile.testStats_eq_scan, hfile.scan_eq, if_neg hne]
    exact ⟨_, rfl, statsOf_durationOf _ (lt_of_le_of_lt (history_length_le _ _) hcommits) (hsecs _)⟩

def quotaKey : Text := subtestResultKey "fs.ktest".toList "quota".toList [] []

def quotaCommits : List TestResultsMap :=
  [(∅ : TestResultsMap).insert quotaKey ⟨.passed, 0, 4⟩,
   (∅ : TestResultsMap).insert quotaKey ⟨.failed, 0, 7⟩]

theorem history_quotaCommits (key : Text) : history quotaCommits key =
    if quotaKey = key then [⟨.passed, 0, 4⟩, ⟨.failed, 0, 7⟩] else [] := by
  by_cases hkey : quotaKey = key <;>
    simp [history, quotaCommits, hkey]

theorem testStats_eq_history_quotaCommits :
    ∃ file st, writeDurationsCapnp (readDurationSums quotaCommits) = some file ∧
      testStats (some file) "fs.ktest".toList "quota".toList [] [] = some st ∧
      st.nr.toNat = 2 ∧ st.passed.toNat = 1 ∧ st.failed.toNat = 1 ∧ st.duration.toNat = 5 := by
  have hsecs : ∀ key, secsSum (history quotaCommits key) < 2 ^ 64 := by
    intro key
    rw [history_quotaCommits]
    split_ifs <;> decide
  obtain ⟨file, hwrite, hlookup⟩ := testStats_eq_history quotaCommits (by decide) hsecs
  have hmem : ∃ m ∈ quotaCommits, quotaKey ∈ m :=
    ⟨_, List.mem_cons_self, by simp⟩
  obtain ⟨st, hst, hstats⟩ := (hlookup "fs.ktest".toList "quota".toList [] []).2.2 hmem
  have hhistory := history_quotaCommits quotaKey
  rw [if_pos rfl] at hhistory
  have hstats' : StatsOf (history quotaCommits quotaKey) st := hstats
  rw [hhistory] at hstats'
  exact ⟨file, st, hwrite, hst, hstats'.nr, hstats'.passed, hstats'.failed, hstats'.duration⟩

def durationNice (tg : RcTestGroup) (stats : Option TestStats) : Int64 :=
  match stats with
  | none => 0
  | some st => if tg.testDurationNice ≠ 0 then (st.duration / tg.testDurationNice).toInt64 else 0

/-- The history has no failure, or no pass, among more verdicts than the group asks for. -/
def ConsistentHistory (tg : RcTestGroup) (rs : List TestResult) : Prop :=
  tg.testAlwaysPassesNice ≠ 0 ∧ (nrOf .passed rs = 0 ∨ nrOf .failed rs = 0) ∧
    tg.testAlwaysPassesNice.toNat < nrOf .passed rs + nrOf .failed rs

/-- The condition that `job_nice` tests. -/
def UnbalancedHistory (tg : RcTestGroup) (rs : List TestResult) : Prop :=
  tg.testAlwaysPassesNice ≠ 0 ∧ nrOf .passed rs ≠ nrOf .failed rs ∧
    tg.testAlwaysPassesNice.toNat < nrOf .passed rs + nrOf .failed rs

instance (tg : RcTestGroup) (rs : List TestResult) : Decidable (ConsistentHistory tg rs) :=
  inferInstanceAs (Decidable (_ ∧ _))

instance (tg : RcTestGroup) (rs : List TestResult) : Decidable (UnbalancedHistory tg rs) :=
  inferInstanceAs (Decidable (_ ∧ _))

/-- The surcharge is for consistent histories, and flaky subtests keep their priority. -/
structure NiceRight (tg : RcTestGroup) (rs : List TestResult) (stats : Option TestStats) : Prop where
  flaky : 1 ≤ nrOf .passed rs → 1 ≤ nrOf .failed rs →
    jobNice tg stats = tg.nice.toInt64 + durationNice tg stats
  surcharge : jobNice tg stats = tg.nice.toInt64 +
    (if ConsistentHistory tg rs then tg.testAlwaysPassesNice.toInt64 else 0) + durationNice tg stats

theorem nrOf_add_nrOf_le (rs : List TestResult) :
    nrOf .passed rs + nrOf .failed rs ≤ rs.length := by
  induction rs with
  | nil => simp [nrOf]
  | cons r rs ih =>
    obtain ⟨status, starttime, duration⟩ := r
    cases status <;> simp [nrOf] at ih ⊢ <;> omega

theorem jobNice_durationOf (tg : RcTestGroup) (key : Text) {rs : List TestResult}
    (hlength : rs.length < 2 ^ 64) :
    jobNice tg (some (durationOf key rs).stats) = tg.nice.toInt64 +
      (if UnbalancedHistory tg rs then tg.testAlwaysPassesNice.toInt64 else 0) +
        durationNice tg (some (durationOf key rs).stats) := by
  have hsum := nrOf_add_nrOf_le rs
  have hpassed : (durationOf key rs).stats.passed.toNat = nrOf .passed rs :=
    toNat_ofNat_of_lt (by omega)
  have hfailed : (durationOf key rs).stats.failed.toNat = nrOf .failed rs :=
    toNat_ofNat_of_lt (by omega)
  have hcond : (tg.testAlwaysPassesNice ≠ 0 ∧
      (durationOf key rs).stats.passed ≠ (durationOf key rs).stats.failed ∧
      (durationOf key rs).stats.passed + (durationOf key rs).stats.failed > tg.testAlwaysPassesNice) ↔
        UnbalancedHistory tg rs := by
    rw [UnbalancedHistory, ne_eq (durationOf key rs).stats.passed, ← UInt64.toNat_inj, hpassed, hfailed,
      gt_iff_lt, UInt64.lt_iff_toNat_lt, UInt64.toNat_add, hpassed, hfailed, Nat.mod_eq_of_lt (by omega)]
  simp only [jobNice, hcond, durationNice]
  split_ifs <;> simp

theorem jobNice_none (tg : RcTestGroup) : jobNice tg none = tg.nice.toInt64 +
    (if UnbalancedHistory tg [] then tg.testAlwaysPassesNice.toInt64 else 0) + durationNice tg none := by
  have hnot : ¬ UnbalancedHistory tg [] := fun h => h.2.1 rfl
  simp [jobNice, durationNice, hnot]

theorem FileOf.jobNice_eq {commits : List TestResultsMap} {file : List Duration}
    (h : FileOf commits file) (hcommits : commits.length < 2 ^ 64) (tg : RcTestGroup)
    (test subtest : Text) :
    jobNice tg (testStats (some file) test subtest [] []) = tg.nice.toInt64 +
      (if UnbalancedHistory tg (history commits (subtestResultKey test subtest [] []))
        then tg.testAlwaysPassesNice.toInt64 else 0) +
      durationNice tg (testStats (some file) test subtest [] []) := by
  rw [h.testStats_eq_scan, h.scan_eq]
  by_cases hnil : history commits (subtestResultKey test subtest [] []) = []
  · rw [if_pos hnil, hnil]
    exact jobNice_none tg
  · rw [if_neg hnil]
    exact jobNice_durationOf tg _ (lt_of_le_of_lt (history_length_le _ _) hcommits)

/-- The histories on which the tested condition goes wrong: flaky, but not half and half. -/
def FlakyUnbalanced (tg : RcTestGroup) (rs : List TestResult) : Prop :=
  tg.testAlwaysPassesNice ≠ 0 ∧ 1 ≤ nrOf .passed rs ∧ 1 ≤ nrOf .failed rs ∧
    nrOf .passed rs ≠ nrOf .failed rs ∧ tg.testAlwaysPassesNice.toNat < nrOf .passed rs + nrOf .failed rs

theorem unbalanced_iff_consistent {tg : RcTestGroup} {rs : List TestResult}
    (h : ¬ FlakyUnbalanced tg rs) : UnbalancedHistory tg rs ↔ ConsistentHistory tg rs := by
  unfold FlakyUnbalanced at h
  constructor
  · rintro ⟨hnice, hne, hlt⟩
    refine ⟨hnice, ?_, hlt⟩
    by_contra hboth
    exact h ⟨hnice, by omega, by omega, hne, hlt⟩
  · rintro ⟨hnice, hzero, hlt⟩
    exact ⟨hnice, by omega, hlt⟩

/-- `job_nice` is right about a history unless it is flaky without being half and half. -/
theorem jobNice_right_iff (commits : List TestResultsMap) (hcommits : commits.length < 2 ^ 64) :
    ∃ file, writeDurationsCapnp (readDurationSums commits) = some file ∧
      ∀ (tg : RcTestGroup) (test subtest : Text),
        NiceRight tg (history commits (subtestResultKey test subtest [] []))
            (testStats (some file) test subtest [] []) ↔
          ¬ FlakyUnbalanced tg (history commits (subtestResultKey test subtest [] [])) := by
  obtain ⟨file, hwrite, hfile⟩ := writeDurationsCapnp_spec hcommits
  refine ⟨file, hwrite, fun tg test subtest => ?_⟩
  have hnice := hfile.jobNice_eq hcommits tg test subtest
  constructor
  · rintro hright ⟨hne, hpassed, hfailed, hdiffer, hlt⟩
    have hflaky := hright.flaky hpassed hfailed
    rw [hnice, if_pos ⟨hne, hdiffer, hlt⟩, Int64.add_left_inj, Int64.add_eq_left] at hflaky
    exact hne (congrArg Int64.toUInt64 hflaky)
  · intro hnot
    have hiff := unbalanced_iff_consistent hnot
    constructor
    · intro hpassed hfailed
      have hconsistent : ¬ ConsistentHistory tg (history commits (subtestResultKey test subtest [] [])) := by
        rintro ⟨-, hzero, -⟩
        omega
      rw [hnice, if_neg (mt hiff.mp hconsistent), Int64.add_zero]
    · simpa only [hiff] using hnice

/-- One pass and one failure, with a surcharge for more than one verdict. -/
theorem jobNice_right_quotaCommits :
    ∃ file, writeDurationsCapnp (readDurationSums quotaCommits) = some file ∧
      NiceRight ⟨50, 0, 0, 1, [], [], ∅⟩ (history quotaCommits quotaKey)
        (testStats (some file) "fs.ktest".toList "quota".toList [] []) := by
  obtain ⟨file, hwrite, hnice⟩ := jobNice_right_iff quotaCommits (by decide)
  refine ⟨file, hwrite, (hnice _ _ _).mpr ?_⟩
  have hhistory := history_quotaCommits quotaKey
  rw [if_pos rfl] at hhistory
  have hkey : subtestResultKey "fs.ktest".toList "quota".toList [] [] = quotaKey := rfl
  rw [hkey, hhistory]
  exact fun h => h.2.2.2.1 rfl

def flakyCommits : List TestResultsMap :=
  (∅ : TestResultsMap).insert quotaKey ⟨.passed, 0, 5⟩ :: quotaCommits

theorem jobNice_raised_when_flaky :
    ¬ ∀ (commits : List TestResultsMap) (file : List Duration) (tg : RcTestGroup) (test subtest : Text),
      commits.length < 2 ^ 64 → writeDurationsCapnp (readDurationSums commits) = some file →
        NiceRight tg (history commits (subtestResultKey test subtest [] []))
          (testStats (some file) test subtest [] []) := by
  intro hall
  have hcommits : flakyCommits.length < 2 ^ 64 := by decide
  obtain ⟨file, hwrite, hfile⟩ := writeDurationsCapnp_spec hcommits
  have hhistory : history flakyCommits quotaKey =
      [⟨.passed, 0, 5⟩, ⟨.passed, 0, 4⟩, ⟨.failed, 0, 7⟩] := by
    have hrest := history_quotaCommits quotaKey
    rw [if_pos rfl] at hrest
    simpa [history, flakyCommits] using hrest
  have hflaky := (hall flakyCommits file ⟨50, 0, 0, 2, [], [], ∅⟩ "fs.ktest".toList "quota".toList
    hcommits hwrite).flaky
  have hkey : subtestResultKey "fs.ktest".toList "quota".toList [] [] = quotaKey := rfl
  rw [hfile.jobNice_eq hcommits, hkey, hhistory, if_pos (by decide)] at hflaky
  have hzero := hflaky (by decide) (by decide)
  rw [Int64.add_left_inj] at hzero
  exact absurd hzero (by decide)

end KtestCi
