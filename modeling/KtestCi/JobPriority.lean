import KtestCi.CheckedInts
import KtestCi.DaemonJobs
import KtestCi.DesiredJobsOrder

/-!
# The arithmetic of priorities

`job_nice`, `job_weight` and the sum in `make_job_spec` cast unsigned numbers of the
configuration and of the history to signed ones and add them. They are read here once more
with every cast and every sum checked. The checks pass exactly if the exact sums fit, and a
larger nice, duration or age then has no smaller weight.
-/

namespace KtestCi

/-- The surcharge for a one-sided history, in `job_nice`. -/
def checkedSurcharge (tg : RcTestGroup) (st : TestStats) (nice : Int64) : Option Int64 :=
  if tg.testAlwaysPassesNice ≠ 0 ∧ st.passed ≠ st.failed then do
    let total ← addUInt64 st.passed st.failed
    if total > tg.testAlwaysPassesNice then
      let surcharge ← castInt64 tg.testAlwaysPassesNice
      addInt64 nice surcharge
    else some nice
  else some nice

/-- `job_nice` with every cast and sum checked. -/
def checkedJobNice (tg : RcTestGroup) (stats : Option TestStats) : Option Int64 := do
  let nice ← castInt64 tg.nice
  match stats with
  | none => some nice
  | some st =>
    let nice ← checkedSurcharge tg st nice
    if tg.testDurationNice ≠ 0 then
      let slow ← castInt64 (st.duration / tg.testDurationNice)
      addInt64 nice slow
    else some nice

/-- `job_weight` likewise. -/
def checkedJobWeight (age : UInt64) (nice : Int64) : Option Int64 := do
  let age ← castInt64 age
  addInt64 age nice

def exactSurcharge (tg : RcTestGroup) (st : TestStats) : ℕ :=
  if tg.testAlwaysPassesNice ≠ 0 ∧ st.passed ≠ st.failed ∧
      tg.testAlwaysPassesNice.toNat < st.passed.toNat + st.failed.toNat
    then tg.testAlwaysPassesNice.toNat else 0

/-- The niceness without machine arithmetic; a group without a duration nice divides by zero. -/
def exactNice (tg : RcTestGroup) : Option TestStats → ℕ
  | none => tg.nice.toNat
  | some st => tg.nice.toNat + exactSurcharge tg st + st.duration.toNat / tg.testDurationNice.toNat

/-- The number of verdicts fits, where it is computed. -/
def VerdictsFit (tg : RcTestGroup) (stats : Option TestStats) : Prop :=
  ∀ st, stats = some st → tg.testAlwaysPassesNice ≠ 0 → st.passed ≠ st.failed →
    st.passed.toNat + st.failed.toNat < 2 ^ 64

section Nice

variable {tg : RcTestGroup} {st : TestStats} {stats : Option TestStats}

theorem exactSurcharge_of_lt (h : tg.testAlwaysPassesNice ≠ 0 ∧ st.passed ≠ st.failed)
    {total : UInt64} (htotal : addUInt64 st.passed st.failed = some total)
    (hlt : total > tg.testAlwaysPassesNice) : exactSurcharge tg st = tg.testAlwaysPassesNice.toNat := by
  have hsum := addUInt64_eq_some.mp htotal
  rw [gt_iff_lt, UInt64.lt_iff_toNat_lt, hsum] at hlt
  rw [exactSurcharge, if_pos ⟨h.1, h.2, hlt⟩]

theorem exactSurcharge_of_not_lt {total : UInt64} (htotal : addUInt64 st.passed st.failed = some total)
    (hlt : ¬ total > tg.testAlwaysPassesNice) : exactSurcharge tg st = 0 := by
  have hsum := addUInt64_eq_some.mp htotal
  rw [gt_iff_lt, UInt64.lt_iff_toNat_lt, hsum] at hlt
  rw [exactSurcharge, if_neg (fun h => hlt h.2.2)]

theorem verdictsFit_iff (h : tg.testAlwaysPassesNice ≠ 0 ∧ st.passed ≠ st.failed) :
    VerdictsFit tg (some st) ↔ ∃ total, addUInt64 st.passed st.failed = some total := by
  constructor
  · intro hfit
    exact ⟨_, if_pos (hfit st rfl h.1 h.2)⟩
  · rintro ⟨total, htotal⟩ st' hst - -
    obtain rfl := Option.some.inj hst
    have hsum := addUInt64_eq_some.mp htotal
    have hlt := total.toNat_lt
    omega

theorem checkedSurcharge_eq_some {nice c : Int64} (hnice : 0 ≤ nice.toInt) :
    checkedSurcharge tg st nice = some c ↔
      VerdictsFit tg (some st) ∧ c.toInt = nice.toInt + exactSurcharge tg st := by
  by_cases hcond : tg.testAlwaysPassesNice ≠ 0 ∧ st.passed ≠ st.failed
  · rw [checkedSurcharge, if_pos hcond, verdictsFit_iff hcond]
    cases htotal : addUInt64 st.passed st.failed with
    | none => simp
    | some total =>
      by_cases hlt : total > tg.testAlwaysPassesNice
      · rw [exactSurcharge_of_lt hcond htotal hlt]
        simp only [Option.bind_eq_bind, Option.bind_some, if_pos hlt, Option.bind_eq_some_iff,
          castInt64_eq_some, addInt64_eq_some]
        constructor
        · rintro ⟨s, hs, hc⟩
          exact ⟨⟨total, rfl⟩, by rw [hc, hs]⟩
        · rintro ⟨-, hc⟩
          have hu := c.toInt_lt
          obtain ⟨s, hs⟩ := exists_toInt_eq (n := tg.testAlwaysPassesNice.toNat) (by omega)
          exact ⟨s, hs, by rw [hc, hs]⟩
      · rw [exactSurcharge_of_not_lt htotal hlt]
        simp [hlt, ← Int64.toInt_inj, eq_comm]
  · have hzero : exactSurcharge tg st = 0 := if_neg (fun h => hcond ⟨h.1, h.2.1⟩)
    have hfit : VerdictsFit tg (some st) := by
      intro st' hst hne hdiffer
      obtain rfl := Option.some.inj hst
      exact absurd ⟨hne, hdiffer⟩ hcond
    rw [checkedSurcharge, if_neg hcond, hzero, Option.some.injEq, ← Int64.toInt_inj]
    simp [hfit, eq_comm]

/-- The checks of `job_nice` pass if the exact niceness fits. -/
theorem checkedJobNice_eq_some {c : Int64} :
    checkedJobNice tg stats = some c ↔ VerdictsFit tg stats ∧ c.toInt = exactNice tg stats := by
  cases stats with
  | none =>
    have hfit : VerdictsFit tg none := by
      intro st hst
      cases hst
    simp [checkedJobNice, castInt64_eq_some, exactNice, hfit]
  | some st =>
    simp only [checkedJobNice, Option.bind_eq_bind, Option.bind_eq_some_iff, castInt64_eq_some]
    constructor
    · rintro ⟨nice, hnice, raised, hraised, h⟩
      rw [checkedSurcharge_eq_some (by omega)] at hraised
      refine ⟨hraised.1, ?_⟩
      by_cases hzero : tg.testDurationNice = 0
      · rw [if_neg (not_not.mpr hzero), Option.some.injEq] at h
        simp [exactNice, hzero, ← h, hraised.2, hnice]
      · rw [if_pos hzero, Option.bind_eq_some_iff] at h
        obtain ⟨slow, hslow, hc⟩ := h
        rw [castInt64_eq_some, UInt64.toNat_div] at hslow
        rw [addInt64_eq_some.mp hc, hraised.2, hnice, hslow, exactNice]
        push_cast
        rfl
    · rintro ⟨hfit, hc⟩
      have hu := c.toInt_lt
      obtain ⟨q, hq⟩ : ∃ q, st.duration.toNat / tg.testDurationNice.toNat = q := ⟨_, rfl⟩
      rw [exactNice, hq] at hc
      obtain ⟨nice, hnice⟩ := exists_toInt_eq (n := tg.nice.toNat) (by omega)
      obtain ⟨raised, hraised⟩ := exists_toInt_eq (n := tg.nice.toNat + exactSurcharge tg st) (by omega)
      refine ⟨nice, hnice, raised, (checkedSurcharge_eq_some (by omega)).mpr ⟨hfit, by omega⟩, ?_⟩
      by_cases hzero : tg.testDurationNice = 0
      · rw [if_neg (not_not.mpr hzero), Option.some.injEq, ← Int64.toInt_inj, hc, hraised]
        simp [← hq, hzero]
      · rw [if_pos hzero, Option.bind_eq_some_iff]
        obtain ⟨slow, hslow⟩ := exists_toInt_eq (n := q) (by omega)
        refine ⟨slow, ?_, ?_⟩
        · rw [castInt64_eq_some, UInt64.toNat_div, hslow, hq]
        · rw [addInt64_eq_some, hc, hraised, hslow]
          push_cast
          rfl

theorem eq_of_checkedSurcharge {nice c : Int64} (h : checkedSurcharge tg st nice = some c) :
    c = if tg.testAlwaysPassesNice ≠ 0 ∧ st.passed ≠ st.failed ∧
        st.passed + st.failed > tg.testAlwaysPassesNice
      then nice + tg.testAlwaysPassesNice.toInt64 else nice := by
  by_cases hcond : tg.testAlwaysPassesNice ≠ 0 ∧ st.passed ≠ st.failed
  · rw [checkedSurcharge, if_pos hcond] at h
    obtain ⟨total, htotal, h⟩ := Option.bind_eq_some_iff.mp h
    obtain rfl := eq_of_addUInt64 htotal
    by_cases hlt : st.passed + st.failed > tg.testAlwaysPassesNice
    · rw [if_pos hlt] at h
      obtain ⟨s, hs, h⟩ := Option.bind_eq_some_iff.mp h
      obtain rfl := eq_of_castInt64 hs
      rw [if_pos ⟨hcond.1, hcond.2, hlt⟩, eq_of_addInt64 h]
    · rw [if_neg hlt] at h
      rw [if_neg (fun h' => hlt h'.2.2), Option.some.inj h]
  · rw [checkedSurcharge, if_neg hcond] at h
    rw [if_neg (fun h' => hcond ⟨h'.1, h'.2.1⟩), Option.some.inj h]

theorem eq_of_checkedJobNice {c : Int64} (h : checkedJobNice tg stats = some c) :
    c = jobNice tg stats := by
  obtain ⟨nice, hnice, h⟩ := Option.bind_eq_some_iff.mp h
  obtain rfl := eq_of_castInt64 hnice
  cases stats with
  | none => exact (Option.some.inj h).symm
  | some st =>
    obtain ⟨raised, hraised, h⟩ := Option.bind_eq_some_iff.mp h
    obtain rfl := eq_of_checkedSurcharge hraised
    by_cases hzero : tg.testDurationNice = 0
    · rw [if_neg (not_not.mpr hzero)] at h
      simp only [jobNice, if_neg (not_not.mpr hzero)]
      exact (Option.some.inj h).symm
    · rw [if_pos hzero] at h
      obtain ⟨slow, hslow, h⟩ := Option.bind_eq_some_iff.mp h
      obtain rfl := eq_of_castInt64 hslow
      simp only [jobNice, if_pos hzero]
      exact eq_of_addInt64 h

theorem toInt_jobNice (hfit : VerdictsFit tg stats) (hlt : exactNice tg stats < 2 ^ 63) :
    (jobNice tg stats).toInt = exactNice tg stats := by
  obtain ⟨c, hc⟩ := exists_toInt_eq hlt
  rw [← eq_of_checkedJobNice (checkedJobNice_eq_some.mpr ⟨hfit, hc⟩), hc]

end Nice

/-- What the priority is computed from, besides the niceness of the user. -/
structure PriorityInputs where
  tg : RcTestGroup
  stats : Option TestStats
  age : UInt64

def PriorityInputs.job (x : PriorityInputs) (key : JobKey) (duration : UInt64) : Job :=
  ⟨key, x.age.toNat, jobNice x.tg x.stats, duration⟩

/-- One of the inputs is lower: the group's nice, the historical duration or the age. -/
inductive Lowered (x : PriorityInputs) : PriorityInputs → Prop
  | nice (n : UInt64) (h : n ≤ x.tg.nice) : Lowered x { x with tg := { x.tg with nice := n } }
  | duration (st : TestStats) (d : UInt64) (hst : x.stats = some st) (h : d ≤ st.duration) :
    Lowered x { x with stats := some { st with duration := d } }
  | age (a : UInt64) (h : a ≤ x.age) : Lowered x { x with age := a }

/-- No cast and no sum loses anything, and nothing lower has a larger weight. -/
structure PrioritySound (rc : CiConfig) (key : JobKey) (duration : UInt64) (x : PriorityInputs) : Prop where
  nice : checkedJobNice x.tg x.stats = some (jobNice x.tg x.stats)
  weight : checkedJobWeight x.age (jobNice x.tg x.stats) = some (jobWeight (x.job key duration))
  specNice : addInt64 (jobNice x.tg x.stats) (rc.ktest.userNice[key.user]?.getD 0) =
    some (makeJobSpec rc (x.job key duration)).nice
  monotone : ∀ y, Lowered x y → jobWeight (y.job key duration) ≤ jobWeight (x.job key duration)

structure PriorityFits (rc : CiConfig) (key : JobKey) (x : PriorityInputs) : Prop where
  verdicts : VerdictsFit x.tg x.stats
  weight : x.age.toNat + exactNice x.tg x.stats < 2 ^ 63
  specNice : exactNice x.tg x.stats + (rc.ktest.userNice[key.user]?.getD 0).toInt < 2 ^ 63

variable {rc : CiConfig} {key : JobKey} {duration : UInt64} {x y : PriorityInputs}

theorem Lowered.verdictsFit (h : Lowered x y) (hfit : VerdictsFit x.tg x.stats) :
    VerdictsFit y.tg y.stats := by
  cases h with
  | nice n hn => exact hfit
  | duration st d hst hd =>
    intro st' hst' hne hdiffer
    obtain rfl := Option.some.inj hst'
    exact hfit st hst hne hdiffer
  | age a ha => exact hfit

theorem Lowered.weight_le (h : Lowered x y) :
    y.age.toNat + exactNice y.tg y.stats ≤ x.age.toNat + exactNice x.tg x.stats := by
  cases h with
  | nice n hn =>
    have hle := UInt64.le_iff_toNat_le.mp hn
    cases hstats : x.stats with
    | none =>
      simp only [exactNice]
      omega
    | some st =>
      have hsame : exactSurcharge { x.tg with nice := n } st = exactSurcharge x.tg st := rfl
      simp only [exactNice, hsame]
      omega
  | duration st d hst hd =>
    have hle := Nat.div_le_div_right (c := x.tg.testDurationNice.toNat) (UInt64.le_iff_toNat_le.mp hd)
    have hsame : exactSurcharge x.tg { st with duration := d } = exactSurcharge x.tg st := rfl
    simp only [exactNice, hst, hsame]
    omega
  | age a ha =>
    have hle := UInt64.le_iff_toNat_le.mp ha
    simp only
    omega

theorem toInt_jobWeight_job (hfit : VerdictsFit x.tg x.stats)
    (hlt : x.age.toNat + exactNice x.tg x.stats < 2 ^ 63) (key : JobKey) (duration : UInt64) :
    (jobWeight (x.job key duration)).toInt = x.age.toNat + exactNice x.tg x.stats := by
  have hexact : exactWeight (x.job key duration) = x.age.toNat + exactNice x.tg x.stats := by
    rw [exactWeight, PriorityInputs.job, toInt_jobNice hfit (by omega)]
  rw [toInt_jobWeight (by omega) (by omega), hexact]

theorem PriorityFits.monotone (h : PriorityFits rc key x) (hlow : Lowered x y) :
    jobWeight (y.job key duration) ≤ jobWeight (x.job key duration) := by
  have hle := hlow.weight_le
  have hlt := h.weight
  rw [Int64.le_iff_toInt_le, toInt_jobWeight_job (hlow.verdictsFit h.verdicts) (by omega),
    toInt_jobWeight_job h.verdicts hlt]
  omega

theorem PriorityFits.sound (h : PriorityFits rc key x) : PrioritySound rc key duration x := by
  have hweight := h.weight
  have hspec := h.specNice
  have hnice := toInt_jobNice h.verdicts (by omega)
  refine ⟨checkedJobNice_eq_some.mpr ⟨h.verdicts, hnice⟩, ?_, ?_, fun y hlow => h.monotone hlow⟩
  · obtain ⟨age, hage⟩ := exists_toInt_eq (n := x.age.toNat) (by omega)
    refine Option.bind_eq_some_iff.mpr ⟨age, castInt64_eq_some.mpr hage, ?_⟩
    rw [addInt64_eq_some, toInt_jobWeight_job h.verdicts hweight, hage, hnice]
  · have hl := (rc.ktest.userNice[key.user]?.getD 0).le_toInt
    rw [addInt64, if_pos (by omega)]
    rfl

theorem PrioritySound.fits (h : PrioritySound rc key duration x) : PriorityFits rc key x := by
  obtain ⟨hfit, hnice⟩ := checkedJobNice_eq_some.mp h.nice
  obtain ⟨age, hage, hsum⟩ := Option.bind_eq_some_iff.mp h.weight
  rw [castInt64_eq_some] at hage
  rw [addInt64_eq_some, hage, hnice] at hsum
  have hspec := addInt64_eq_some.mp h.specNice
  rw [hnice] at hspec
  have hu := (jobWeight (x.job key duration)).toInt_lt
  have hu' := (makeJobSpec rc (x.job key duration)).nice.toInt_lt
  exact ⟨hfit, by omega, by omega⟩

/-- Priorities are sound exactly where the exact sums fit. -/
theorem prioritySound_iff (rc : CiConfig) (key : JobKey) (duration : UInt64) (x : PriorityInputs) :
    PrioritySound rc key duration x ↔ PriorityFits rc key x :=
  ⟨PrioritySound.fits, PriorityFits.sound⟩

/-- A group with the nice `2 ^ 63` comes before one with the nice `0`. -/
theorem nicest_group_runs_first :
    let tg (nice : UInt64) : RcTestGroup := ⟨50, nice, 180, 10, [], [], ∅⟩
    let key : JobKey := ⟨[], [], [], [], [], [], []⟩
    let nicest : PriorityInputs := ⟨tg 9223372036854775808, none, 0⟩
    let other : PriorityInputs := ⟨tg 0, none, 0⟩
    Lowered nicest other ∧ jobWeight (nicest.job key 0) < jobWeight (other.job key 0) ∧
      ∀ rc duration, ¬ PrioritySound rc key duration nicest := by
  intro tg key nicest other
  have hlow : Lowered nicest other := .nice 0 (by decide)
  have hlt : jobWeight (nicest.job key 0) < jobWeight (other.job key 0) := by decide
  refine ⟨hlow, hlt, ?_⟩
  intro rc duration h
  exact absurd hlt (Int64.not_lt.mpr (h.monotone _ hlow))

end KtestCi
