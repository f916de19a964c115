import KtestCi.ScratchHotplug

/-!
# Putting back what a failed test has unplugged

A subtest may end between the unplug and the plug of a device. After one that failed, `run_tests`
goes through the state files and plugs every device again that is marked as gone. The marks are
right as long as the process that wrote them lives, so the next subtest finds every device.
-/

namespace KtestCi.Qemu

open EventRuns

/-- The calls of a subtest up to its end, each with its index and whether it plugs, and whether
the subtest failed. -/
structure Subtest where
  calls : List (ℕ × Bool)
  failed : Bool

def Subtest.events (t : Subtest) : List HotplugEvent :=
  t.calls.map (fun call => if call.2 then .plug call.1 else .unplug call.1)

def stateFiles (count : ℕ) (s : Hotplug) : List ℕ :=
  ((List.range count).filter (fun i => (s.files i).isSome)).mergeSort
    (fun i j => (compare (Text.ofInt i) (Text.ofInt j)).isLE)

def replugLoop (vm : Vm) (count : ℕ) : List ℕ → Hotplug → Option Hotplug
  | [], s => some s
  | i :: is, s => match s.files i with
    | none => replugLoop vm count is s
    | some st =>
      if st.present then replugLoop vm count is s
      else (hotplugStep vm count s (.plug i)).bind (replugLoop vm count is)

def scratchDevReplugAll (vm : Vm) (count : ℕ) (s : Hotplug) : Option Hotplug :=
  replugLoop vm count (stateFiles count s) s

/-- A subtest that is not the last one, without `ktest_failfast`. -/
def subtestStep (vm : Vm) (count : ℕ) (s : Hotplug) (t : Subtest) : Option Hotplug :=
  (run (hotplugStep vm count) s t.events).bind (fun s =>
    if t.failed then scratchDevReplugAll vm count s else some s)

/-- The state files say which devices are there, and none of them is missing. -/
structure Hotplug.Tended (bus : StorageBus) (c : Config) (s : Hotplug) : Prop where
  sound : s.Sound bus c
  right : ∀ r ∈ s.calls, r.Right bus (startVm bus c)
  kept : ∀ i, plugs s.calls i ≠ 0 → (s.files i).isSome = true
  marked : ∀ i st, s.files i = some st → i < c.scratchDevs ∧ st.present = (s.attached i).isSome
  unmarked : ∀ i, i < c.scratchDevs → s.files i = none → (s.attached i).isSome = true

section Runs

variable {bus : StorageBus} {c : Config} {s s' : Hotplug}

theorem Hotplug.Tended.findsFile (h : s.Tended bus c) (i : ℕ) :
    ((s.files i).isSome || plugs s.calls i == 0) = true := by
  by_cases hzero : plugs s.calls i = 0
  · simp [hzero]
  · simp [h.kept i hzero]

theorem Hotplug.Tended.right_step (hlines : c.OneLine) (h : s.Tended bus c) {e : HotplugEvent}
    (hfile : Qemu.findsFile s e = true)
    (hstep : hotplugStep (startVm bus c) c.scratchDevs s e = some s') :
    ∀ r ∈ s'.calls, r.Right bus (startVm bus c) :=
  (right_step_iff hlines h.sound hstep).mpr ⟨hfile, h.right⟩

theorem Hotplug.Tended.unplug (hlines : c.OneLine) (h : s.Tended bus c) {i : ℕ}
    (hstep : hotplugStep (startVm bus c) c.scratchDevs s (.unplug i) = some s') : s'.Tended bus c := by
  have hsound := h.sound.unplug (h.findsFile i) hstep
  have hright := h.right_step hlines (e := .unplug i) (h.findsFile i) hstep
  obtain ⟨hi, id, hid, rfl⟩ := hotplugStep_unplug hstep
  refine ⟨hsound, hright, ?_, ?_, ?_⟩
  · intro j hj
    rw [plugs_cons_unplug rfl] at hj
    by_cases hji : j = i
    · simp [hji]
    · simpa [Function.update_of_ne hji] using h.kept j hj
  · intro j st hst
    rcases update_eq_some hst with ⟨rfl, hst⟩ | ⟨hji, hst⟩
    · rw [← Option.some.inj hst]
      simp [hi]
    · simpa [Function.update_of_ne hji] using h.marked j st hst
  · intro j hj hnone
    by_cases hji : j = i
    · simp [hji] at hnone
    · simp only [Function.update_of_ne hji] at hnone ⊢
      exact h.unmarked j hj hnone

theorem Hotplug.Tended.plug (hlines : c.OneLine) (h : s.Tended bus c) {i : ℕ} (hi : i < c.scratchDevs)
    (hstep : hotplugStep (startVm bus c) c.scratchDevs s (.plug i) = some s') :
    s'.Tended bus c ∧ (s'.attached i).isSome = true ∧
      (∀ j, (s.attached j).isSome = true → (s'.attached j).isSome = true) ∧
      ∀ j, (s.files j).isSome = true → (s'.files j).isSome = true := by
  have hsound := h.sound.plug hlines (h.findsFile i) hstep
  have hright := h.right_step hlines (e := .plug i) (h.findsFile i) hstep
  obtain ⟨drive, spec, -, rfl⟩ := hotplugStep_plug hlines rfl rfl hstep
  have hkeep {α : Type} {f : ℕ → Option α} {x : α} : ∀ j, (f j).isSome = true →
      (Function.update f i (some x) j).isSome = true := by
    intro j hj
    by_cases hji : j = i
    · simp [hji]
    · simpa [Function.update_of_ne hji] using hj
  refine ⟨⟨hsound, hright, ?_, ?_, ?_⟩, by simp, hkeep, hkeep⟩
  · intro j hj
    rw [plugs_cons_plug rfl] at hj
    by_cases hji : j = i
    · simp [hji]
    · rw [if_neg (fun heq => hji heq.symm), Nat.add_zero] at hj
      simpa [Function.update_of_ne hji] using h.kept j hj
  · intro j st hst
    rcases update_eq_some hst with ⟨rfl, hst⟩ | ⟨hji, hst⟩
    · rw [← Option.some.inj hst]
      simp [hi]
    · simpa [Function.update_of_ne hji] using h.marked j st hst
  · intro j hj hnone
    by_cases hji : j = i
    · simp [hji] at hnone
    · simp only [Function.update_of_ne hji] at hnone ⊢
      exact h.unmarked j hj hnone

theorem Hotplug.Tended.call (hlines : c.OneLine) (h : s.Tended bus c) {i : ℕ} {plug : Bool}
    (hstep : hotplugStep (startVm bus c) c.scratchDevs s (if plug then .plug i else .unplug i) = some s') :
    s'.Tended bus c := by
  cases plug with
  | false => exact h.unplug hlines hstep
  | true =>
    have hi : i < c.scratchDevs := by
      simp only [if_true, hotplugStep] at hstep
      split_ifs at hstep with hguard
      exact hguard.1
    exact (h.plug hlines hi hstep).1

theorem Hotplug.Tended.calls (hlines : c.OneLine) (h : s.Tended bus c) (t : Subtest)
    (hrun : run (hotplugStep (startVm bus c) c.scratchDevs) s t.events = some s') : s'.Tended bus c := by
  have hkeep : ∀ s e s', (∃ (i : ℕ) (plug : Bool), e = if plug then HotplugEvent.plug i else .unplug i) →
      Hotplug.Tended bus c s → hotplugStep (startVm bus c) c.scratchDevs s e = some s' →
      Hotplug.Tended bus c s' := by
    rintro s e s' ⟨i, plug, rfl⟩ hs hstep
    exact hs.call hlines hstep
  refine run_invariant hkeep ?_ h hrun
  intro e he
  obtain ⟨call, -, rfl⟩ := List.mem_map.mp he
  exact ⟨call.1, call.2, rfl⟩

theorem Hotplug.exists_plug (hlines : c.OneLine) {i : ℕ} (hi : i < c.scratchDevs)
    (hgone : (s.attached i).isSome = false) :
    ∃ s', hotplugStep (startVm bus c) c.scratchDevs s (.plug i) = some s' := by
  obtain ⟨drive, spec, hargs, -⟩ := plugArgs_startVm bus hlines hi rfl
    ((scratchDevState (startVm bus c) s.files i).gen + 1)
  rw [hotplugStep, if_pos ⟨hi, by simpa using hgone⟩]
  simp only [hargs]
  exact ⟨_, rfl⟩

/-- The loop attaches every device of its list and takes none away. -/
theorem replugLoop_spec (hlines : c.OneLine) (is : List ℕ) (h : s.Tended bus c) :
    ∃ s', replugLoop (startVm bus c) c.scratchDevs is s = some s' ∧ s'.Tended bus c ∧
      (∀ j, (s.attached j).isSome = true → (s'.attached j).isSome = true) ∧
      ∀ i ∈ is, (s.files i).isSome = true → (s'.attached i).isSome = true := by
  induction is generalizing s with
  | nil => exact ⟨s, rfl, h, fun _ hj => hj, by simp⟩
  | cons i is ih =>
    rw [replugLoop]
    cases hfile : s.files i with
    | none =>
      obtain ⟨s', hs', htended, hkeep, hall⟩ := ih h
      refine ⟨s', hs', htended, hkeep, ?_⟩
      intro j hj hsome
      rcases List.mem_cons.mp hj with rfl | hj
      · simp [hfile] at hsome
      · exact hall j hj hsome
    | some st =>
      obtain ⟨hi, hpresent⟩ := h.marked i st hfile
      simp only
      split_ifs with hst
      · obtain ⟨s', hs', htended, hkeep, hall⟩ := ih h
        refine ⟨s', hs', htended, hkeep, ?_⟩
        intro j hj hsome
        rcases List.mem_cons.mp hj with rfl | hj
        · exact hkeep j (hpresent ▸ hst)
        · exact hall j hj hsome
      · have hgone : (s.attached i).isSome = false := by simpa [hpresent] using hst
        obtain ⟨s₁, hplug⟩ := Hotplug.exists_plug hlines hi hgone
        obtain ⟨h₁, hback, hkeep₁, hfiles₁⟩ := h.plug hlines hi hplug
        obtain ⟨s', hs', htended, hkeep, hall⟩ := ih h₁
        refine ⟨s', by rw [hplug]; exact hs', htended, fun j hj => hkeep j (hkeep₁ j hj), ?_⟩
        intro j hj hsome
        rcases List.mem_cons.mp hj with rfl | hj
        · exact hkeep j hback
        · exact hall j hj (hfiles₁ j hsome)

theorem scratchDevReplugAll_spec (hlines : c.OneLine) (h : s.Tended bus c) :
    ∃ s', scratchDevReplugAll (startVm bus c) c.scratchDevs s = some s' ∧ s'.Tended bus c ∧
      ∀ i, i < c.scratchDevs → (s'.attached i).isSome = true := by
  obtain ⟨s', hs', htended, hkeep, hall⟩ := replugLoop_spec hlines (stateFiles c.scratchDevs s) h
  refine ⟨s', hs', htended, ?_⟩
  intro i hi
  cases hfile : s.files i with
  | none => exact hkeep i (h.unmarked i hi hfile)
  | some st =>
    have hsome : (s.files i).isSome = true := by simp [hfile]
    refine hall i ?_ hsome
    rw [stateFiles, List.mem_mergeSort, List.mem_filter, List.mem_range]
    exact ⟨hi, hsome⟩

theorem Hotplug.Tended.subtest (hlines : c.OneLine) (h : s.Tended bus c) {t : Subtest}
    (hstep : subtestStep (startVm bus c) c.scratchDevs s t = some s') :
    s'.Tended bus c ∧ (t.failed = true → ∀ i, i < c.scratchDevs → (s'.attached i).isSome = true) := by
  obtain ⟨s₁, hcalls, hend⟩ := Option.bind_eq_some_iff.mp hstep
  have h₁ := h.calls hlines t hcalls
  split_ifs at hend with hfailed
  · obtain ⟨s₂, hs₂, htended, hall⟩ := scratchDevReplugAll_spec hlines h₁
    obtain rfl : s₂ = s' := Option.some.inj (hs₂.symm.trans hend)
    exact ⟨htended, fun _ => hall⟩
  · obtain rfl := Option.some.inj hend
    exact ⟨h₁, fun hf => absurd hf hfailed⟩

end Runs

end KtestCi.Qemu
