import KtestCi.GcResults

/-!
# What garbage collection takes for a commit

`gc-results` takes every name of 40 bytes or more for that of a commit, and the first 40
bytes for its id. The output directory also holds files of other components, whose names
grow with the names of users and branches.
-/

namespace KtestCi

def isHexDigit (c : Char) : Bool := c.isDigit || ('a' ≤ c && c ≤ 'f') || ('A' ≤ c && c ≤ 'F')

/-- The commit that a file is named after: its name begins with 40 hexadecimal digits. -/
def namedCommit (fname : Text) : Option Text :=
  if 40 ≤ fname.length ∧ (fname.take 40).all isHexDigit then some (fname.take 40) else none

/-- An entry whose name is a text and whose time can be read. -/
structure ListedEntry where
  name : Text
  modified : ℤ
  deriving DecidableEq

def ListedEntry.toOutput (d : ListedEntry) : OutputEntry := ⟨.utf8 d.name, some d.modified⟩

/-- The time before which entries are removed. -/
def gcOlderThan (now : ℤ) : ℤ := now - 3600 * 1000000000

def ListedEntry.DeadCommit (commits : List Text) (now : ℤ) (d : ListedEntry) : Prop :=
  ∃ commit, namedCommit d.name = some commit ∧ commit ∉ commits ∧ d.modified < gcOlderThan now

def RemovesDeadCommits (commits : List Text) (now : ℤ) (entries : List ListedEntry) : Prop :=
  ∀ d ∈ entries, d.toOutput ∈ gcLoop commits (gcOlderThan now) (entries.map ListedEntry.toOutput) ↔
    d.DeadCommit commits now

/-- The entries in front of the first one whose name has a character across the fortieth byte. -/
def wholeNames (entries : List ListedEntry) : List ListedEntry :=
  entries.takeWhile (fun d => !d.name.splitsAt 40)

/-- An old entry with a long name that is neither that of a live commit nor that of any. -/
def ListedEntry.Mistaken (commits : List Text) (now : ℤ) (d : ListedEntry) : Prop :=
  d.modified < gcOlderThan now ∧
    ∃ start, d.name.utf8Take 40 = some start ∧ start ∉ commits ∧ start.all isHexDigit = false

theorem utf8Size_of_isHexDigit {c : Char} (h : isHexDigit c = true) : c.utf8Size = 1 := by
  rw [Char.utf8Size_eq_one_iff, UInt32.le_iff_toNat_le]
  simp only [isHexDigit, Char.isDigit, Bool.or_eq_true, Bool.and_eq_true, decide_eq_true_eq, ge_iff_le,
    Char.le_def, UInt32.le_iff_toNat_le] at h
  rcases h with (h | h) | h
  · exact h.2.trans (by decide)
  · exact h.2.trans (by decide)
  · exact h.2.trans (by decide)

theorem namedCommit_eq_some_iff {fname commit : Text} : namedCommit fname = some commit ↔
    fname.utf8Take 40 = some commit ∧ commit.all isHexDigit = true := by
  rw [Text.utf8Take_eq_some_iff, namedCommit]
  constructor
  · intro h
    split_ifs at h with hhex
    obtain rfl := Option.some.inj h
    have hascii : ∀ c ∈ fname.take 40, c.utf8Size = 1 := fun c hc =>
      utf8Size_of_isHexDigit (List.all_eq_true.mp hhex.2 c hc)
    refine ⟨⟨List.take_prefix 40 fname, ?_⟩, hhex.2⟩
    rw [Text.utf8Len_of_ascii hascii, List.length_take]
    omega
  · rintro ⟨⟨hpre, hlen⟩, hhex⟩
    have hascii : ∀ c ∈ commit, c.utf8Size = 1 := fun c hc =>
      utf8Size_of_isHexDigit (List.all_eq_true.mp hhex c hc)
    rw [Text.utf8Len_of_ascii hascii] at hlen
    have htake : commit = fname.take 40 := hlen ▸ List.prefix_iff_eq_take.mp hpre
    have hlong := hpre.length_le
    rw [if_pos ⟨by omega, htake ▸ hhex⟩, htake]

theorem commit_toOutput (d : ListedEntry) : d.toOutput.commit = d.name.utf8Take 40 := by
  simp only [ListedEntry.toOutput, OutputEntry.commit]
  split_ifs with h
  · exact (Text.utf8Take_eq_none_of_short h).symm
  · rfl

theorem stops_toOutput (commits : List Text) (d : ListedEntry) :
    d.toOutput.stops commits = d.name.splitsAt 40 := by
  simp only [ListedEntry.toOutput, OutputEntry.stops, resultIsLive, Text.splitsAt]
  by_cases h : d.name.utf8Len < 40
  · simp [h]
  · cases htake : d.name.utf8Take 40 with
    | none => simp [h, Nat.le_of_not_lt h]
    | some start => simp [h]

theorem toOutput_injective : Function.Injective ListedEntry.toOutput := by
  rintro ⟨name, modified⟩ ⟨name', modified'⟩ h
  simpa [ListedEntry.toOutput] using h

theorem reached_toOutput (commits : List Text) (entries : List ListedEntry) :
    reached commits (entries.map ListedEntry.toOutput) = (wholeNames entries).map ListedEntry.toOutput := by
  rw [reached, List.takeWhile_map, wholeNames]
  congr 2
  funext d
  simp [stops_toOutput]

/-- What is removed of a listing. -/
theorem toOutput_mem_gcLoop_iff {commits : List Text} {now : ℤ} {entries : List ListedEntry}
    {d : ListedEntry} :
    d.toOutput ∈ gcLoop commits (gcOlderThan now) (entries.map ListedEntry.toOutput) ↔
      d ∈ wholeNames entries ∧ d.modified < gcOlderThan now ∧
        ∃ start, d.name.utf8Take 40 = some start ∧ start ∉ commits := by
  have hold : d.toOutput.Old (gcOlderThan now) ↔ d.modified < gcOlderThan now := by
    simp [ListedEntry.toOutput, OutputEntry.Old]
  have hname : ¬ ∃ b, d.toOutput.name = .bytes b := by simp [ListedEntry.toOutput]
  rw [mem_gcLoop, reached_toOutput, List.mem_map_of_injective toOutput_injective,
    resultIsLive_eq_false_iff, or_iff_right hname, commit_toOutput, hold]
  constructor
  · rintro ⟨hmem, hdead, hlt⟩
    exact ⟨hmem, hlt, hdead⟩
  · rintro ⟨hmem, hlt, hdead⟩
    exact ⟨hmem, hdead, hlt⟩

theorem deadCommit_iff {commits : List Text} {now : ℤ} {d : ListedEntry} : d.DeadCommit commits now ↔
    d.modified < gcOlderThan now ∧
      ∃ start, d.name.utf8Take 40 = some start ∧ start ∉ commits ∧ start.all isHexDigit = true := by
  simp only [ListedEntry.DeadCommit, namedCommit_eq_some_iff]
  constructor
  · rintro ⟨commit, ⟨htake, hhex⟩, hnot, hlt⟩
    exact ⟨hlt, commit, htake, hnot, hhex⟩
  · rintro ⟨hlt, commit, htake, hnot, hhex⟩
    exact ⟨commit, ⟨htake, hhex⟩, hnot, hlt⟩

/-- Only old results of dead commits are removed, and all of them, exactly if no entry that the
loop reaches is mistaken for one, and it stops in front of none. -/
theorem removesDeadCommits_iff (commits : List Text) (now : ℤ) (entries : List ListedEntry) :
    RemovesDeadCommits commits now entries ↔
      (∀ d ∈ wholeNames entries, ¬ d.Mistaken commits now) ∧
        ∀ d ∈ entries, d ∉ wholeNames entries → ¬ d.DeadCommit commits now := by
  have hsub : ∀ d ∈ wholeNames entries, d ∈ entries := fun d hd => List.takeWhile_subset _ hd
  constructor
  · intro h
    constructor
    · rintro d hd ⟨hlt, start, htake, hnot, hhex⟩
      have hremoved := toOutput_mem_gcLoop_iff.mpr ⟨hd, hlt, start, htake, hnot⟩
      obtain ⟨-, start', htake', -, hhex'⟩ := deadCommit_iff.mp ((h d (hsub d hd)).mp hremoved)
      rw [htake] at htake'
      rw [← Option.some.inj htake', hhex] at hhex'
      exact Bool.false_ne_true hhex'
    · exact fun d hd hnot hdead => hnot (toOutput_mem_gcLoop_iff.mp ((h d hd).mpr hdead)).1
  · rintro ⟨hwhole, hrest⟩ d hd
    constructor
    · intro hremoved
      obtain ⟨hmem, hlt, start, htake, hnot⟩ := toOutput_mem_gcLoop_iff.mp hremoved
      refine deadCommit_iff.mpr ⟨hlt, start, htake, hnot, ?_⟩
      by_contra hhex
      exact hwhole d hmem ⟨hlt, start, htake, hnot, by simpa using hhex⟩
    · intro hdead
      by_cases hmem : d ∈ wholeNames entries
      · obtain ⟨hlt, start, htake, hnot, -⟩ := deadCommit_iff.mp hdead
        exact toOutput_mem_gcLoop_iff.mpr ⟨hmem, hlt, start, htake, hnot⟩
      · exact absurd hdead (hrest d hd hmem)

def branchLog : ListedEntry := ⟨"branch.user.bcachefs-testing-branch.capnp".toList, 0⟩

/-- A branch log is taken for a commit and removed. -/
theorem not_removesDeadCommits : ¬ ∀ (commits : List Text) (now : ℤ) (entries : List ListedEntry),
    RemovesDeadCommits commits now entries := by
  intro h
  have hremoved : branchLog.toOutput ∈
      gcLoop [] (gcOlderThan (7200 * 1000000000)) ([branchLog].map ListedEntry.toOutput) := by
    decide +kernel
  have hdead := (h [] _ [branchLog] branchLog List.mem_cons_self).mp hremoved
  obtain ⟨commit, hnamed, -⟩ := hdead
  have hnone : namedCommit branchLog.name = none := by decide +kernel
  rw [hnone] at hnamed
  cases hnamed

end KtestCi
