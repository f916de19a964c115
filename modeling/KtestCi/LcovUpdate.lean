import KtestCi.TextSearch
import Mathlib.Data.List.Nodup

/-!
# Merging coverage data

`update_lcov` removes the marker of a commit directory, merges the partial coverage files into
`lcov.info` and removes them. The marker goes first, and the steps behind it can fail: then the
call returns and nothing says that the files are still to be merged. Once `lcov.info` is renamed
into place, a partial file whose removal fails is merged again by the next call.
-/

namespace KtestCi
namespace LcovUpdate

/-- A commit directory: the marker `lcov-stale`, the files with the data in them, what was merged
into `lcov.info`, and a bound on the data so far. -/
structure CommitDir where
  stale : Bool
  entries : List (Text × ℕ)
  info : Option (List ℕ)
  next : ℕ

/-- The data merged into `lcov.info`. -/
def CommitDir.merged (d : CommitDir) : List ℕ := d.info.getD []

def isPartial (name : Text) : Bool := "lcov.partial.".toList.isPrefixOf name

/-- How each step ends: whether a file operation works, for each entry of the directory whether
it is read and whether it is removed, and whether a program exits with zero, if it starts. -/
structure Outcome where
  removeStale : Bool
  lock : Bool
  readDir : Bool
  reads : Text → Bool
  lcov : Option Bool
  rename : Bool
  removes : Text → Bool
  checkout : Option Bool
  genhtml : Option Bool

inductive Result
  | returned (r : Option Unit)
  | panicked
  deriving DecidableEq

def updateLcov (d : CommitDir) (o : Outcome) : CommitDir × Result :=
  if !(d.stale && o.removeStale) then (d, .returned (some ())) else
  -- from here on only a call that gets through merges what the marker stood for
  let d := { d with stale := false }
  if !o.lock then (d, .returned none) else
  if !o.readDir then (d, .returned none) else
  let newLcov := d.entries.filter (fun p => o.reads p.1 && isPartial p.1)
  match o.lcov with
  | none => (d, .panicked)
  | some false => (d, .returned (some ()))
  | some true =>
    if !o.rename then (d, .returned none) else
    let d := { d with
      info := some (newLcov.map Prod.snd ++ d.info.getD [])
      entries := d.entries.filter (fun p => !(newLcov.contains p && o.removes p.1)) }
    match o.checkout with
    | none => (d, .panicked)
    | some false => (d, .returned (some ()))
    | some true => match o.genhtml with
      | none => (d, .panicked)
      | some _ => (d, .returned (some ()))

/-- What happens around the calls: data is put into a file, and the marker is set. -/
inductive Event
  | arrives (name : Text)
  | marks
  | call (o : Outcome)

/-- The directory, and before and after each call that found the marker and returned. -/
structure State where
  dir : CommitDir
  returns : List (CommitDir × CommitDir)

def step (s : State) : Event → State
  | .arrives name => { s with dir :=
      { s.dir with
        entries := (name, s.dir.next) :: s.dir.entries.filter (fun p => p.1 != name)
        next := s.dir.next + 1 } }
  | .marks => { s with dir := { s.dir with stale := true } }
  | .call o =>
    let after := updateLcov s.dir o
    if s.dir.stale && after.2 != .panicked then
      ⟨after.1, (s.dir, after.1) :: s.returns⟩
    else { s with dir := after.1 }

/-- All partial files are merged and removed, or the marker is there for a later call. -/
def Kept (d d' : CommitDir) : Prop :=
  (∀ p ∈ d.entries, isPartial p.1 = true → p.2 ∈ d'.merged ∧ p ∉ d'.entries) ∨ d'.stale = true

/-- No return forgets a partial file, and nothing is merged twice. -/
structure State.Sound (s : State) : Prop where
  kept : ∀ r ∈ s.returns, Kept r.1 r.2
  once : s.dir.merged.Nodup

structure CommitDir.WellFormed (d : CommitDir) : Prop where
  nodup : (d.entries.map Prod.snd).Nodup
  once : d.merged.Nodup
  apart : ∀ p ∈ d.entries, isPartial p.1 = true → p.2 ∉ d.merged
  entries_lt : ∀ p ∈ d.entries, p.2 < d.next
  merged_lt : ∀ i ∈ d.merged, i < d.next

namespace Outcome

def commits (o : Outcome) : Bool := o.lock && o.readDir && o.lcov == some true && o.rename

def panics (o : Outcome) : Bool :=
  o.lock && o.readDir && (o.lcov == none || (o.lcov == some true && o.rename &&
    (o.checkout == none || (o.checkout == some true && o.genhtml == none))))

/-- A call that returns has read all partial files and put the new `lcov.info` into place, and
one that has put it there has removed what it read. -/
structure Thorough (o : Outcome) : Prop where
  commits : o.panics = false → o.commits = true
  reads : o.panics = false → ∀ name, isPartial name = true → o.reads name = true
  removes : o.commits = true → ∀ name, isPartial name = true → o.reads name = true → o.removes name = true

end Outcome

def CommitDir.merge (d : CommitDir) (o : Outcome) : CommitDir :=
  { d with
    stale := false
    info := some ((d.entries.filter (fun p => o.reads p.1 && isPartial p.1)).map Prod.snd ++ d.merged)
    entries := d.entries.filter (fun p => !(o.reads p.1 && isPartial p.1 && o.removes p.1)) }

variable {d : CommitDir} {o : Outcome}

theorem updateLcov_of_not_stale (h : (d.stale && o.removeStale) = false) :
    updateLcov d o = (d, .returned (some ())) := by
  simp [updateLcov, h]

theorem filter_listed (d : CommitDir) (o : Outcome) :
    d.entries.filter (fun p => !((d.entries.filter (fun p => o.reads p.1 && isPartial p.1)).contains p &&
        o.removes p.1)) =
      d.entries.filter (fun p => !(o.reads p.1 && isPartial p.1 && o.removes p.1)) := by
  apply List.filter_congr
  intro p hp
  have hcontains : (d.entries.filter (fun p => o.reads p.1 && isPartial p.1)).contains p =
      (o.reads p.1 && isPartial p.1) := by
    rw [Bool.eq_iff_iff, List.contains_iff_mem, List.mem_filter]
    simp [hp]
  rw [hcontains]

/-- With one, the call puts a new `lcov.info` into place or leaves the files alone. -/
theorem updateLcov_of_stale (h : (d.stale && o.removeStale) = true) :
    ∃ r, updateLcov d o = (if o.commits then d.merge o else { d with stale := false }, r) ∧
      (r != .panicked) = !o.panics := by
  simp only [updateLcov, h, filter_listed, CommitDir.merge, CommitDir.merged]
  obtain ⟨removeStale, lock, readDir, reads, lcov, rename, removes, checkout, genhtml⟩ := o
  cases lock with
  | false => exact ⟨_, rfl, rfl⟩
  | true => cases readDir with
    | false => exact ⟨_, rfl, rfl⟩
    | true => cases lcov with
      | none => exact ⟨_, rfl, rfl⟩
      | some exits => cases exits with
        | false => exact ⟨_, rfl, rfl⟩
        | true => cases rename with
          | false => exact ⟨_, rfl, rfl⟩
          | true => cases checkout with
            | none => exact ⟨_, rfl, rfl⟩
            | some exits => cases exits with
              | false => exact ⟨_, rfl, rfl⟩
              | true => cases genhtml with
                | none => exact ⟨_, rfl, rfl⟩
                | some exits => exact ⟨_, rfl, rfl⟩

theorem merged_merge (d : CommitDir) (o : Outcome) : (d.merge o).merged =
    (d.entries.filter (fun p => o.reads p.1 && isPartial p.1)).map Prod.snd ++ d.merged := rfl

theorem mem_entries_merge {p : Text × ℕ} :
    p ∈ (d.merge o).entries ↔ p ∈ d.entries ∧ !(o.reads p.1 && isPartial p.1 && o.removes p.1) := by
  simp [CommitDir.merge]

theorem mem_merged_merge {i : ℕ} : i ∈ (d.merge o).merged ↔
    (∃ p ∈ d.entries, o.reads p.1 = true ∧ isPartial p.1 = true ∧ p.2 = i) ∨ i ∈ d.merged := by
  rw [merged_merge, List.mem_append, List.mem_map]
  simp [and_assoc]

theorem eq_of_snd_eq (h : d.WellFormed) {p q : Text × ℕ} (hp : p ∈ d.entries) (hq : q ∈ d.entries)
    (heq : p.2 = q.2) : p = q :=
  List.inj_on_of_nodup_map h.nodup hp hq heq

theorem CommitDir.WellFormed.merge (h : d.WellFormed) (hthorough : o.Thorough) (hcommits : o.commits = true) :
    (d.merge o).WellFormed where
  nodup := h.nodup.sublist (List.filter_sublist.map _)
  once := by
    rw [merged_merge]
    refine List.Nodup.append (h.nodup.sublist (List.filter_sublist.map _)) h.once ?_
    intro i hi hmerged
    obtain ⟨p, hp, rfl⟩ := List.mem_map.mp hi
    rw [List.mem_filter, Bool.and_eq_true] at hp
    exact h.apart p hp.1 hp.2.2 hmerged
  apart := by
    intro p hp hpartial hmerged
    rw [mem_entries_merge] at hp
    rcases mem_merged_merge.mp hmerged with ⟨q, hq, hreads, -, heq⟩ | hold
    · -- what was merged in this call has been removed in it
      obtain rfl := eq_of_snd_eq h hq hp.1 heq
      have hremoves := hthorough.removes hcommits q.1 hpartial hreads
      simp [hreads, hpartial, hremoves] at hp
    · exact h.apart p hp.1 hpartial hold
  entries_lt := fun p hp => h.entries_lt p (mem_entries_merge.mp hp).1
  merged_lt := by
    intro i hi
    rcases mem_merged_merge.mp hi with ⟨p, hp, -, -, rfl⟩ | hold
    · exact h.entries_lt p hp
    · exact h.merged_lt i hold

theorem kept_merge (hthorough : o.Thorough) (hpanics : o.panics = false) : Kept d (d.merge o) := by
  have hcommits := hthorough.commits hpanics
  refine .inl ?_
  intro p hp hpartial
  have hreads := hthorough.reads hpanics p.1 hpartial
  have hremoves := hthorough.removes hcommits p.1 hpartial hreads
  refine ⟨mem_merged_merge.mpr (.inl ⟨p, hp, hreads, hpartial, rfl⟩), ?_⟩
  rw [mem_entries_merge]
  simp [hreads, hpartial, hremoves]

theorem CommitDir.WellFormed.withStale (h : d.WellFormed) (stale : Bool) :
    { d with stale := stale }.WellFormed :=
  ⟨h.nodup, h.once, h.apart, h.entries_lt, h.merged_lt⟩

theorem CommitDir.WellFormed.arrives (h : d.WellFormed) (name : Text) :
    { d with
      entries := (name, d.next) :: d.entries.filter (fun p => p.1 != name)
      next := d.next + 1 }.WellFormed where
  nodup := by
    rw [List.map_cons, List.nodup_cons]
    refine ⟨?_, h.nodup.sublist (List.filter_sublist.map _)⟩
    intro hmem
    obtain ⟨p, hp, heq⟩ := List.mem_map.mp hmem
    have hlt := h.entries_lt p (List.mem_of_mem_filter hp)
    omega
  once := h.once
  apart := by
    rw [List.forall_mem_cons]
    refine ⟨fun _ hmem => lt_irrefl _ (h.merged_lt _ hmem), ?_⟩
    intro p hp
    exact h.apart p (List.mem_of_mem_filter hp)
  entries_lt := by
    rw [List.forall_mem_cons]
    refine ⟨Nat.lt_succ_self _, ?_⟩
    intro p hp
    exact Nat.lt_succ_of_lt (h.entries_lt p (List.mem_of_mem_filter hp))
  merged_lt := fun i hi => Nat.lt_succ_of_lt (h.merged_lt i hi)

/-- The marker stays, or all steps work that matter. -/
def Outcome.Good (o : Outcome) : Prop := o.removeStale = true → o.Thorough

theorem CommitDir.WellFormed.updateLcov (h : d.WellFormed) (hgood : o.Good) :
    (updateLcov d o).1.WellFormed := by
  cases hmark : d.stale && o.removeStale with
  | false =>
    rw [updateLcov_of_not_stale hmark]
    exact h
  | true =>
    obtain ⟨r, hcall, -⟩ := updateLcov_of_stale hmark
    rw [hcall]
    by_cases hcommits : o.commits = true
    · rw [if_pos hcommits]
      exact h.merge (hgood (Bool.and_eq_true_iff.mp hmark).2) hcommits
    · rw [if_neg hcommits]
      exact h.withStale false

theorem kept_updateLcov (hgood : o.Good) (hstale : d.stale = true)
    (hreturns : ((updateLcov d o).2 != .panicked) = true) : Kept d (updateLcov d o).1 := by
  cases hmark : d.stale && o.removeStale with
  | false =>
    rw [updateLcov_of_not_stale hmark]
    exact .inr hstale
  | true =>
    obtain ⟨r, hcall, hr⟩ := updateLcov_of_stale hmark
    rw [hcall, hr, Bool.not_eq_true'] at hreturns
    have hthorough := hgood (Bool.and_eq_true_iff.mp hmark).2
    rw [hcall, if_pos (hthorough.commits hreturns)]
    exact kept_merge hthorough hreturns

structure Inv (s : State) : Prop where
  dir : s.dir.WellFormed
  kept : ∀ r ∈ s.returns, Kept r.1 r.2

theorem Inv.step {s : State} (h : Inv s) {e : Event} (hgood : ∀ o, e = .call o → o.Good) :
    Inv (step s e) := by
  cases e with
  | arrives name => exact ⟨h.dir.arrives name, h.kept⟩
  | marks => exact ⟨h.dir.withStale true, h.kept⟩
  | call o =>
    have hdir := h.dir.updateLcov (hgood o rfl)
    simp only [LcovUpdate.step]
    split_ifs with hrecord
    · rw [Bool.and_eq_true] at hrecord
      refine ⟨hdir, List.forall_mem_cons.mpr ⟨?_, h.kept⟩⟩
      exact kept_updateLcov (hgood o rfl) hrecord.1 hrecord.2
    · exact ⟨hdir, h.kept⟩

theorem Inv.run {s : State} (h : Inv s) {es : List Event} (hgood : ∀ o, .call o ∈ es → o.Good) :
    Inv (es.foldl LcovUpdate.step s) := by
  induction es generalizing s with
  | nil => exact h
  | cons e es ih =>
    refine ih (h.step ?_) (fun o ho => hgood o (List.mem_cons_of_mem _ ho))
    rintro o rfl
    exact hgood o List.mem_cons_self

def emptyDir : CommitDir := ⟨false, [], none, 0⟩

theorem emptyDir_wellFormed : emptyDir.WellFormed := by
  constructor <;> simp [emptyDir, CommitDir.merged]

def oneDir (name : Text) : CommitDir := ⟨true, [(name, 0)], none, 1⟩

theorem updateLcov_oneDir (name : Text) (hremove : o.removeStale = true) :
    ∃ r, updateLcov (oneDir name) o =
        (if o.commits then (oneDir name).merge o else { oneDir name with stale := false }, r) ∧
      (r != .panicked) = !o.panics :=
  updateLcov_of_stale (by simp [oneDir, hremove])

/-- A call that returns without having merged the file has forgotten it. -/
theorem not_sound_of_unmerged {name : Text} (hname : isPartial name = true) (hremove : o.removeStale = true)
    (hpanics : o.panics = false) (hmissed : o.commits = true → o.reads name = false) :
    ¬ ([Event.arrives name, .marks, .call o].foldl step ⟨emptyDir, []⟩).Sound := by
  intro h
  obtain ⟨r, hcall, hr⟩ := updateLcov_oneDir name hremove
  rw [hpanics] at hr
  have hkept := h.kept (oneDir name, (updateLcov (oneDir name) o).1) (by
    have hstep : [Event.arrives name, .marks, .call o].foldl step ⟨emptyDir, []⟩ =
        step ⟨oneDir name, []⟩ (.call o) := rfl
    rw [hstep, step, hcall]
    simp [oneDir, hr])
  rw [hcall] at hkept
  by_cases hcommits : o.commits = true
  · rw [if_pos hcommits] at hkept
    rcases hkept with hmerged | hstale
    · have hmem := (hmerged (name, 0) (by simp [oneDir]) hname).1
      rw [mem_merged_merge] at hmem
      simp [oneDir, CommitDir.merged, hmissed hcommits] at hmem
    · simp [CommitDir.merge] at hstale
  · rw [if_neg hcommits] at hkept
    rcases hkept with hmerged | hstale
    · have hmem := (hmerged (name, 0) (by simp [oneDir]) hname).1
      simp [oneDir, CommitDir.merged] at hmem
    · simp at hstale

theorem step_call_dir (s : State) (o : Outcome) : (step s (.call o)).dir = (updateLcov s.dir o).1 := by
  simp only [step]
  split_ifs <;> rfl

/-- A file that is merged and not removed is merged again. -/
theorem not_sound_of_left {name : Text} (hname : isPartial name = true) (hremove : o.removeStale = true)
    (hcommits : o.commits = true) (hreads : o.reads name = true) (hleft : o.removes name = false) :
    ¬ ([Event.arrives name, .marks, .call o, .marks, .call o].foldl step ⟨emptyDir, []⟩).Sound := by
  intro h
  obtain ⟨r, hcall, -⟩ := updateLcov_oneDir name hremove
  rw [if_pos hcommits] at hcall
  have hmerge : (oneDir name).merge o = ⟨false, [(name, 0)], some [0], 1⟩ := by
    simp [CommitDir.merge, oneDir, CommitDir.merged, hreads, hname, hleft]
  have hfirst : (step ⟨oneDir name, []⟩ (.call o)).dir = ⟨false, [(name, 0)], some [0], 1⟩ := by
    rw [step_call_dir, hcall, hmerge]
  have hmark : ((⟨true, [(name, 0)], some [0], 1⟩ : CommitDir).stale && o.removeStale) = true := by
    simp [hremove]
  obtain ⟨r', hcall', -⟩ := updateLcov_of_stale hmark
  have hsecond : ([Event.arrives name, .marks, .call o, .marks, .call o].foldl step ⟨emptyDir, []⟩).dir.merged =
      [0, 0] := by
    have hstep : [Event.arrives name, .marks, .call o, .marks, .call o].foldl step ⟨emptyDir, []⟩ =
        step (step (step ⟨oneDir name, []⟩ (.call o)) .marks) (.call o) := rfl
    have hmarked : (step (step ⟨oneDir name, []⟩ (.call o)) .marks).dir =
        ⟨true, [(name, 0)], some [0], 1⟩ := by
      rw [step, hfirst]
    rw [hstep, step_call_dir, hmarked, hcall', if_pos hcommits]
    simp [CommitDir.merge, CommitDir.merged, hreads, hname]
  have honce := h.once
  rw [hsecond] at honce
  exact absurd honce (by decide)

/-- Coverage data is never forgotten and never merged twice, exactly if in every call the marker
stays, or the steps work up to the removal of the partial files. -/
theorem coverage_kept_iff (allowed : Outcome → Prop) :
    (∀ (d : CommitDir) (es : List Event), d.WellFormed → (∀ o, .call o ∈ es → allowed o) →
      (es.foldl step ⟨d, []⟩).Sound) ↔ ∀ o, allowed o → o.Good := by
  constructor
  · intro h o ho hremove
    have hone : ∀ name, (∀ o', .call o' ∈ [Event.arrives name, .marks, .call o] → allowed o') := by
      intro name o' ho'
      obtain rfl : o' = o := by simpa using ho'
      exact ho
    have hpartial : isPartial "lcov.partial.1".toList = true := by decide
    have hcommits : o.panics = false → o.commits = true := by
      intro hpanics
      by_contra hnot
      exact not_sound_of_unmerged hpartial hremove hpanics (fun hc => absurd hc hnot)
        (h emptyDir _ emptyDir_wellFormed (hone _))
    refine ⟨hcommits, ?_, ?_⟩
    · intro hpanics name hname
      by_contra hnot
      exact not_sound_of_unmerged hname hremove hpanics (fun _ => by simpa using hnot)
        (h emptyDir _ emptyDir_wellFormed (hone name))
    · intro hcommits name hname hreads
      by_contra hnot
      refine not_sound_of_left hname hremove hcommits hreads (by simpa using hnot)
        (h emptyDir _ emptyDir_wellFormed ?_)
      intro o' ho'
      obtain rfl : o' = o := by simpa using ho'
      exact ho
  · intro hgood d es hd hallowed
    have hinv : Inv (es.foldl step ⟨d, []⟩) :=
      Inv.run ⟨hd, by simp⟩ (fun o ho => hgood o (hallowed o ho))
    exact ⟨hinv.kept, hinv.dir.once⟩

/-- `lcov` exits with an error: the file is not merged, and the marker is gone. -/
theorem partial_forgotten_after_lcov_error :
    let o : Outcome := ⟨true, true, true, fun _ => true, some false, true, fun _ => true, some true, some true⟩
    let name := "lcov.partial.1".toList
    (updateLcov (oneDir name) o) = (⟨false, [(name, 0)], none, 1⟩, .returned (some ())) ∧
      ¬ ([Event.arrives name, .marks, .call o].foldl step ⟨emptyDir, []⟩).Sound := by
  intro o name
  refine ⟨rfl, ?_⟩
  exact not_sound_of_unmerged (by decide) rfl (by decide) (fun h => absurd h (by decide))

end LcovUpdate
end KtestCi
