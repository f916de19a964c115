import Mathlib.Data.List.Nodup
import Mathlib.Data.List.Count

/-!
# A job queue with fresh ids

What is relied on of a queue: a submitted job gets an id that was never used, it leaves the
pending state only by being claimed and the running state only by finishing, and only
finished jobs are dropped. Everything but a submission can only shrink the queue.
-/

namespace KtestCi

inductive JobState where
  | pending | running | finished
  deriving DecidableEq

/-- A job in the queue. -/
structure ChoirJob (π : Type) where
  id : ℕ
  payload : π
  state : JobState

/-- The jobs that have not been dropped, and all ids given out so far. -/
structure Choir (π : Type) where
  jobs : List (ChoirJob π)
  used : List ℕ

namespace Choir

variable {π : Type}

def jobIds (ch : Choir π) : List ℕ := ch.jobs.map ChoirJob.id

def pending (ch : Choir π) : ℕ := ch.jobs.countP (fun j => j.state = .pending)

def remove (ch : Choir π) (drop : ℕ → Bool) : Choir π :=
  { ch with jobs := ch.jobs.filter (fun j => !(j.state = .finished && drop j.id)) }

def submit (ch : Choir π) (id : ℕ) (payload : π) : Option (Choir π) :=
  if id ∈ ch.used then none else some ⟨ch.jobs ++ [⟨id, payload, .pending⟩], id :: ch.used⟩

def move (ch : Choir π) (ids : List ℕ) (source target : JobState) : Choir π :=
  { ch with jobs := ch.jobs.map (fun j =>
      if j.id ∈ ids ∧ j.state = source then { j with state := target } else j) }

def claim (ch : Choir π) (ids : List ℕ) : Option (Choir π) :=
  if ∀ id ∈ ids, ∃ j ∈ ch.jobs, j.id = id ∧ j.state = .pending then
    some (ch.move ids .pending .running) else none

def finish (ch : Choir π) (id : ℕ) : Option (Choir π) :=
  if ∃ j ∈ ch.jobs, j.id = id ∧ j.state = .running then
    some (ch.move [id] .running .finished) else none

/-- The ids of present jobs are distinct and have been given out. -/
structure WellFormed (ch : Choir π) : Prop where
  nodup : ch.jobIds.Nodup
  used : ∀ id ∈ ch.jobIds, id ∈ ch.used

def identities (ch : Choir π) : List (ℕ × π) := ch.jobs.map (fun j => (j.id, j.payload))

/-- Jobs may go and change state, but none is added or made pending. -/
structure Shrinks (ch ch' : Choir π) : Prop where
  identities : ch'.identities.Sublist ch.identities
  used : ch'.used = ch.used
  pending : ch'.pending ≤ ch.pending

theorem remove_shrinks (ch : Choir π) (drop : ℕ → Bool) : Shrinks ch (ch.remove drop) where
  identities := List.filter_sublist.map _
  used := rfl
  pending := List.filter_sublist.countP_le

theorem move_shrinks (ch : Choir π) (ids : List ℕ) {source target : JobState}
    (htarget : target ≠ .pending) : Shrinks ch (ch.move ids source target) where
  identities := by
    have heq : (ch.move ids source target).identities = ch.identities := by
      simp only [Choir.identities, move, List.map_map]
      apply List.map_congr_left
      intro j _
      by_cases hj : j.id ∈ ids ∧ j.state = source <;> simp [hj]
    rw [heq]
  used := rfl
  pending := by
    simp only [Choir.pending, move, List.countP_map]
    apply List.countP_mono_left
    intro j _
    by_cases hj : j.id ∈ ids ∧ j.state = source <;> simp [hj, htarget]

theorem claim_shrinks {ch ch' : Choir π} {ids : List ℕ} (h : ch.claim ids = some ch') :
    Shrinks ch ch' := by
  unfold claim at h
  split_ifs at h
  exact Option.some.inj h ▸ ch.move_shrinks ids (by decide)

theorem finish_shrinks {ch ch' : Choir π} {id : ℕ} (h : ch.finish id = some ch') :
    Shrinks ch ch' := by
  unfold finish at h
  split_ifs at h
  exact Option.some.inj h ▸ ch.move_shrinks [id] (by decide)

theorem jobIds_eq_identities (ch : Choir π) : ch.jobIds = ch.identities.map Prod.fst := by
  simp [jobIds, identities]

theorem Shrinks.jobIds {ch ch' : Choir π} (h : Shrinks ch ch') : ch'.jobIds.Sublist ch.jobIds := by
  simp only [jobIds_eq_identities]
  exact h.identities.map _

theorem Shrinks.wellFormed {ch ch' : Choir π} (h : Shrinks ch ch') (hw : WellFormed ch) :
    WellFormed ch' where
  nodup := hw.nodup.sublist h.jobIds
  used := by
    intro id hid
    rw [h.used]
    exact hw.used id (h.jobIds.subset hid)

theorem Shrinks.exists_job {ch ch' : Choir π} (h : Shrinks ch ch') {j' : ChoirJob π}
    (hj' : j' ∈ ch'.jobs) : ∃ j ∈ ch.jobs, j.id = j'.id ∧ j.payload = j'.payload := by
  have hmem : (j'.id, j'.payload) ∈ ch.identities :=
    h.identities.subset (List.mem_map.mpr ⟨j', hj', rfl⟩)
  obtain ⟨j, hj, heq⟩ := List.mem_map.mp hmem
  exact ⟨j, hj, congrArg Prod.fst heq, congrArg Prod.snd heq⟩

/-- What a submission does. -/
structure Submits (ch ch' : Choir π) (id : ℕ) (payload : π) : Prop where
  fresh : id ∉ ch.used
  jobs : ch'.jobs = ch.jobs ++ [⟨id, payload, .pending⟩]
  used : ch'.used = id :: ch.used

theorem submits_of_submit {ch ch' : Choir π} {id : ℕ} {payload : π}
    (h : ch.submit id payload = some ch') : Submits ch ch' id payload := by
  unfold submit at h
  split_ifs at h with hfresh
  obtain rfl := Option.some.inj h
  exact ⟨hfresh, rfl, rfl⟩

theorem Submits.pending {ch ch' : Choir π} {id : ℕ} {payload : π} (h : Submits ch ch' id payload) :
    ch'.pending = ch.pending + 1 := by
  simp [Choir.pending, h.jobs]

theorem Submits.wellFormed {ch ch' : Choir π} {id : ℕ} {payload : π}
    (h : Submits ch ch' id payload) (hw : WellFormed ch) : WellFormed ch' := by
  have hids : ch'.jobIds = ch.jobIds ++ [id] := by simp [jobIds, h.jobs]
  constructor
  · rw [hids, List.nodup_append]
    refine ⟨hw.nodup, List.nodup_singleton id, ?_⟩
    intro a ha b hb heq
    obtain rfl := List.mem_singleton.mp hb
    exact h.fresh (heq ▸ hw.used a ha)
  · intro a ha
    rw [hids, List.mem_append, List.mem_singleton] at ha
    rw [h.used, List.mem_cons]
    exact ha.elim (fun ha => .inr (hw.used a ha)) .inl

/-- What running jobs can rely on: those outside `P` keep running, no id is forgotten, and a
job that is pending was pending before or has a new id. -/
structure Keeps (P : ℕ → Prop) (ch ch' : Choir π) : Prop where
  running : ∀ j ∈ ch.jobs, j.state = .running → ¬ P j.id → j ∈ ch'.jobs
  used : ∀ id ∈ ch.used, id ∈ ch'.used
  pending : ∀ j ∈ ch'.jobs, j.state = .pending → j ∈ ch.jobs ∨ j.id ∉ ch.used

theorem remove_keeps (P : ℕ → Prop) (ch : Choir π) (drop : ℕ → Bool) :
    Keeps P ch (ch.remove drop) where
  running := by
    intro j hj hrunning _
    exact List.mem_filter.mpr ⟨hj, by simp [hrunning]⟩
  used := fun _ hid => hid
  pending := fun _ hj _ => .inl (List.mem_filter.mp hj).1

theorem Submits.keeps {ch ch' : Choir π} {id : ℕ} {payload : π} (P : ℕ → Prop)
    (h : Submits ch ch' id payload) : Keeps P ch ch' where
  running := by
    intro j hj _ _
    rw [h.jobs]
    exact List.mem_append_left _ hj
  used := by
    intro id' hid'
    rw [h.used]
    exact List.mem_cons_of_mem id hid'
  pending := by
    intro j hj _
    rw [h.jobs, List.mem_append, List.mem_singleton] at hj
    rcases hj with hj | rfl
    · exact .inl hj
    · exact .inr h.fresh

theorem mem_move {ch : Choir π} {ids : List ℕ} {source target : JobState} {j : ChoirJob π}
    (hj : j ∈ ch.jobs) :
    (if j.id ∈ ids ∧ j.state = source then { j with state := target } else j) ∈
      (ch.move ids source target).jobs :=
  List.mem_map.mpr ⟨j, hj, rfl⟩

theorem mem_of_mem_move {ch : Choir π} {ids : List ℕ} {source target : JobState} {j : ChoirJob π}
    (hj : j ∈ (ch.move ids source target).jobs) (hstate : j.state ≠ target) : j ∈ ch.jobs := by
  obtain ⟨j₀, hj₀, rfl⟩ := List.mem_map.mp hj
  split_ifs at hstate ⊢
  · exact absurd rfl hstate
  · exact hj₀

theorem state_ne_of_mem_move {ch : Choir π} {ids : List ℕ} {source target : JobState} {j : ChoirJob π}
    (hne : target ≠ source) (hj : j ∈ (ch.move ids source target).jobs) (hid : j.id ∈ ids) :
    j.state ≠ source := by
  obtain ⟨j₀, hj₀, rfl⟩ := List.mem_map.mp hj
  split_ifs at hid ⊢ with h
  · exact hne
  · exact fun hstate => h ⟨hid, hstate⟩

theorem claim_eq {ch ch' : Choir π} {ids : List ℕ} (h : ch.claim ids = some ch') :
    (∀ id ∈ ids, ∃ j ∈ ch.jobs, j.id = id ∧ j.state = .pending) ∧
      ch' = ch.move ids .pending .running := by
  unfold claim at h
  split_ifs at h with hids
  exact ⟨hids, (Option.some.inj h).symm⟩

theorem finish_eq {ch ch' : Choir π} {id : ℕ} (h : ch.finish id = some ch') :
    ch' = ch.move [id] .running .finished := by
  unfold finish at h
  split_ifs at h
  exact (Option.some.inj h).symm

theorem claim_keeps {ch ch' : Choir π} {ids : List ℕ} (P : ℕ → Prop) (h : ch.claim ids = some ch') :
    Keeps P ch ch' := by
  obtain ⟨-, rfl⟩ := claim_eq h
  refine ⟨?_, fun _ hid => hid, ?_⟩
  · intro j hj hrunning _
    have hmem := @mem_move π ch ids .pending .running j hj
    rwa [if_neg (by simp [hrunning])] at hmem
  · intro j hj hpending
    exact .inl (mem_of_mem_move hj (by simp [hpending]))

theorem finish_keeps {ch ch' : Choir π} {id : ℕ} (h : ch.finish id = some ch') :
    Keeps (fun id' => id' = id) ch ch' := by
  obtain rfl := finish_eq h
  refine ⟨?_, fun _ hid => hid, ?_⟩
  · intro j hj _ hne
    have hmem := @mem_move π ch [id] .running .finished j hj
    rwa [if_neg (by simp [hne])] at hmem
  · intro j hj hpending
    exact .inl (mem_of_mem_move hj (by simp [hpending]))

/-- Every job has a successor with the same payload. -/
def Covers (ch ch' : Choir π) : Prop := ∀ j ∈ ch.jobs, ∃ j' ∈ ch'.jobs, j'.payload = j.payload

theorem move_covers (ch : Choir π) (ids : List ℕ) (source target : JobState) :
    Covers ch (ch.move ids source target) := by
  intro j hj
  refine ⟨_, mem_move hj, ?_⟩
  split_ifs <;> rfl

theorem Submits.covers {ch ch' : Choir π} {id : ℕ} {payload : π} (h : Submits ch ch' id payload) :
    Covers ch ch' := by
  intro j hj
  refine ⟨j, ?_, rfl⟩
  rw [h.jobs]
  exact List.mem_append_left _ hj

end Choir
end KtestCi
