import KtestCi.DaemonOnce
import KtestCi.EnvEncoding

/-!
# A daemon that dies and starts again

The daemon may be killed between any two steps. What the next one loads are the results of the
last, without those that were in progress: these are wanted again, while a verdict is neither
claimed again nor changed. All capnp writes up to the crash succeed; the crash itself may leave
temporary files and anything in the result directories.
-/

namespace KtestCi

namespace TestResultsStore

/-- The files hold what the store holds, of every commit, with or without a directory. -/
structure Mirrors (s : TestResultsStore) : Prop where
  produced : s.outputDir.Produced
  memory : ∀ c, isCommitId c = true → s.outputDir.decoded c = (s.results c).published
  names : ∀ c, ∀ k ∈ s.results c, IsEntryName k

theorem Mirrors.congr {s s' : TestResultsStore} (h : Mirrors s)
    (hfiles : ∀ c, s'.outputDir.capnp c = s.outputDir.capnp c) (hresults : s'.byCommit = s.byCommit) :
    Mirrors s' := by
  have hsame (c : Text) : s'.results c = s.results c := by
    rw [results, commitResults, hresults, results, commitResults]
  refine ⟨?_, ?_, ?_⟩
  · intro c file hfile
    exact h.produced c file ((hfiles c).symm.trans hfile)
  · intro c hc
    rw [decoded_congr (hfiles c), hsame]
    exact h.memory c hc
  · intro c
    rw [hsame]
    exact h.names c

theorem Mirrors.update {s : TestResultsStore} {io : CapnpWrite} {commit : Text} {updates : TestResultsMap}
    (h : Mirrors s) (hio : io.outcome = .written) (hnames : ∀ k ∈ updates, IsEntryName k) :
    Mirrors (s.update io commit updates) := by
  have hcapnp (c : Text) : (s.update io commit updates).outputDir.capnp c =
      if commit = c ∧ updates.isEmpty = false then
        some (.message (resultsMessage c none ((s.update io commit updates).results c)))
      else s.outputDir.capnp c := by
    have := s.capnp_apply io (.update commit updates) c
    simpa [apply, StoreCall.commit, StoreCall.rewrites, hio] using this
  have hall (c : Text) : ∀ k ∈ (s.update io commit updates).results c, IsEntryName k := by
    intro k hk
    rw [results_update] at hk
    split_ifs at hk
    · rcases Std.ExtTreeMap.mem_union_iff.mp hk with hk | hk
      · exact h.names c k hk
      · exact hnames k hk
    · exact h.names c k hk
  refine ⟨?_, ?_, hall⟩
  · intro c file hfile
    rw [hcapnp] at hfile
    split_ifs at hfile
    · exact .inr ⟨c, none, _, (Option.some.inj hfile).symm, hall c⟩
    · exact h.produced c file hfile
  · intro c hid
    have hfile := hcapnp c
    split_ifs at hfile with hc
    · exact OutputDir.decoded_of_message hfile
    · rw [decoded_congr hfile, h.memory c hid, results_update]
      split_ifs with heq
      · have hempty : updates.isEmpty = true := by simpa [heq] using hc
        have hnone := (TextMap.isEmpty_iff_getElem? updates).mp hempty
        congr 1
        apply Std.ExtTreeMap.ext_getElem?
        intro k
        simp [Std.ExtTreeMap.getElem?_union, hnone k]
      · rfl

theorem Loads.mirrors {clear : Bool} {o : OutputDir} {s : TestResultsStore}
    (h : Loads clear o.commits.keys ⟨o, ∅⟩ s) (hdirs : ∀ c, (o.capnp c).isSome = true → loadable o c = true) :
    Mirrors s := by
  have hm := h.mirrored
  refine ⟨hm.produced, ?_, hm.names⟩
  intro c hid
  have hloadable : loadable s.outputDir c = loadable o c := by simp only [loadable, h.contains c]
  cases hl : loadable s.outputDir c with
  | true => exact hm.memory c hl
  | false =>
    have hnot : ¬ loadable o c = true := by simp [← hloadable, hl]
    have hkeys : c ∉ o.commits.keys := by
      intro hmem
      exact hnot (by simpa [loadable, hid] using Std.ExtTreeMap.mem_keys.mp hmem)
    have hfile : s.outputDir.capnp c = none := by
      rw [(h.other c hkeys).2]
      exact Option.not_isSome_iff_eq_none.mp (fun hsome => hnot (hdirs c hsome))
    simp [OutputDir.decoded, hfile, hm.absent c hl, TestResultsMap.published]

theorem Mirrors.load {s : TestResultsStore} (h : Mirrors s) (io : LoadIo) (o : OutputDir) (clear : Bool)
    (hw : ∀ c, (io.write c).outcome = .written) (hfiles : ∀ c, o.capnp c = s.outputDir.capnp c)
    (hdirs : ∀ c, s.results c ≠ ∅ → loadable o c = true) :
    ∃ s₁, TestResultsStore.load io o clear = some s₁ ∧
      ∀ c k, s₁.lookup c k = (s.lookup c k).filter (fun st => !dropStatus clear st) := by
  have hp : o.Produced := fun c file hfile => h.produced c file ((hfiles c).symm.trans hfile)
  obtain ⟨s₁, hload, h₁⟩ := load_spec io clear o hp (fun c _ _ _ => hw c)
  refine ⟨s₁, hload, ?_⟩
  intro c k
  rw [lookup_eq_results, lookup_eq_results, h₁.results_eq c]
  by_cases hl : loadable o c = true
  · have hid : isCommitId c = true := (Bool.and_eq_true_iff.mp hl).1
    rw [if_pos hl, getElem?_kept, decoded_congr (hfiles c), h.memory c hid,
      TestResultsMap.getElem?_published]
    cases (s.results c)[k]? with
    | none => rfl
    | some r => cases hd : dropStatus clear r.status <;> simp [Option.filter, hd]
  · have hempty : s.results c = ∅ := by
      by_contra hne
      exact hl (hdirs c hne)
    simp [hl, hempty]

end TestResultsStore

namespace Daemon

open BatchRun (Batch ClaimedJob Stage Moves Valid isVerdict)
open EventRuns
open TestResultsStore (Mirrors)

def Event.Written : Event → Prop
  | move _ (.update io) => io.outcome = .written
  | _ => True

variable {rc : CiConfig} {window : ℕ} {K : JobKey → Prop}

theorem files_writeStatus (o : OutputDir) (commit key text : Text) (w : BatchRun.StatusWrite) :
    (BatchRun.writeStatus o commit key text w).files = o.files := by
  cases w with
  | written mtime => rfl
  | failed remains => cases remains <;> rfl

theorem files_pullDirs (o : OutputDir) (commit : Text) (dirs : Text → Option ResultDir) (keys : List Text) :
    (BatchRun.pullDirs o commit dirs keys).files = o.files := by
  induction keys generalizing o with
  | nil => rfl
  | cons key keys ih =>
    rw [BatchRun.pullDirs, ih]
    cases dirs key <;> rfl

theorem capnp_congr {o o' : OutputDir} (h : o'.files = o.files) (c : Text) : o'.capnp c = o.capnp c := by
  rw [OutputDir.capnp, h, OutputDir.capnp]

theorem mirrors_of_moves {b : Batch} {s s' : TestResultsStore} {st st' : Stage} {e : BatchRun.Event}
    (h : Mirrors s) (hvalid : Valid b st) (hnames : ∀ k ∈ b.keys, IsEntryName k)
    (hwritten : ∀ io, e = .update io → io.outcome = .written) (hm : Moves b s st e s' st') :
    Mirrors s' := by
  have hupdate {io : CapnpWrite} {updates : TestResultsMap} (he : e = .update io)
      (hkeys : ∀ (k : Text) (r : TestResult), updates[k]? = some r → k ∈ b.keys) :
      Mirrors (s.update io b.commit updates) := by
    refine h.update (hwritten io he) ?_
    intro k hk
    obtain ⟨r, hr⟩ := TextMap.mem_iff_exists.mp hk
    exact hnames k (hkeys k r hr)
  cases hm with
  | marked now marks io => exact hupdate rfl (fun k r hr => (hvalid.2.2 k r hr).2)
  | recorded remaining next verdicts didClean now io =>
    refine hupdate rfl ?_
    intro k r hr
    exact BatchRun.mem_keys_of_mem_map hvalid.1.2 (hvalid.2.2.2.2 k r hr).1
  | failed updates now e io => exact hupdate rfl (fun k r hr => (hvalid.2 k r hr).2)
  | mark | failWrite => exact h.congr (capnp_congr (files_writeStatus _ _ _ _ _)) rfl
  | pulled | pullFailed => exact h.congr (capnp_congr (files_pullDirs _ _ _ _)) rfl
  | _ => exact h

structure Persistent (rc : CiConfig) (K : JobKey → Prop) (d : State) : Prop where
  exclusive : Exclusive rc K d
  mirrors : Mirrors d.store

structure Named (key : JobKey) : Prop where
  test : resultBasename key.test key.kernel key.env ≠ []
  subtest : key.subtest ≠ []

/-- The environment of a job has been encoded, so that its result key is one component of a path. -/
theorem isEntryName_of_inMatrix {w : World} {key : JobKey} (h : InMatrix rc w key) (hkey : Named key) :
    IsEntryName key.resultKey := by
  obtain ⟨spec, age, commit, subtest, kernel, hcell, rfl⟩ := h
  have henv : '/' ∉ spec.env := slash_notMem_of_encodeEnv (encodeEnv_of_spec hcell.spec_mem)
  exact isEntryName_subtestResultKey henv hkey.test hkey.subtest

theorem Persistent.step {d d' : State} {e : Event} (h : Persistent rc K d) (hK : Separated K)
    (hnames : ∀ key, K key → IsEntryName key.resultKey) (he : e.Within rc K ∧ e.Written)
    (hstep : step rc window d e = some d') : Persistent rc K d' := by
  refine ⟨h.exclusive.step hK he.1 hstep, ?_⟩
  cases advances_of_step hstep with
  | @move b st st' store i e hi hm =>
    have hmem : (b, st) ∈ d.runs := List.mem_of_getElem? hi
    refine mirrors_of_moves h.mirrors (h.exclusive.holding.valid _ hmem) ?_ ?_ hm
    · intro k hk
      obtain ⟨-, -, j, -, -, -, hKj, -, hresult⟩ :=
        owner h.exclusive.queued h.exclusive.holding hmem (active_of_moves hm) hk
      exact hresult ▸ hnames _ hKj
    · rintro io rfl
      exact he.2
  | files commits => exact h.mirrors.congr (fun _ => rfl) rfl
  | refill | snapshot | desire | claim | report => exact h.mirrors

/-- A verdict that nobody is responsible for stays without anybody. -/
def Retired (c k : Text) (status : TestStatus) (d : State) : Prop :=
  claims d c k = 0 ∧ d.store.lookup c k = some status

theorem Retired.step {d d' : State} {e : Event} {c k : Text} {status : TestStatus}
    (h : Retired c k status d) (hstatus : resultIsDone status = true) (hd : Exclusive rc K d)
    (hd' : Exclusive rc K d') (hstep : step rc window d e = some d') : Retired c k status d' := by
  obtain ⟨hclaims, hlookup⟩ := h
  have hnot {r : Batch × Stage} (hr : r ∈ d.runs) : ¬ (r.1.commit = c ∧ k ∈ r.1.keys) := fun hboth =>
    List.countP_eq_zero.mp hclaims r hr (holds_iff.mpr hboth)
  cases effect_of_step hstep with
  | quiet hresults hruns =>
    refine ⟨?_, (lookup_congr hresults c k).trans hlookup⟩
    rw [claims, hruns]
    exact hclaims
  | @claim ids b choir' hids hb hclaim =>
    refine ⟨?_, hlookup⟩
    rw [claims, List.countP_append, List.countP_singleton, if_neg, Nat.add_zero]
    · exact hclaims
    · intro hholds
      obtain ⟨rfl, hk⟩ := holds_iff.mp hholds
      have hwanted := hd'.fresh.starting (b, .start) (by simp) rfl k hk
      simp only at hwanted
      rw [hlookup] at hwanted
      simp [jobWanted, hstatus] at hwanted
  | @move i b st st' e store' hi hm =>
    have hmem : (b, st) ∈ d.runs := List.mem_of_getElem? hi
    refine ⟨(claims_move d c k store' hi st').trans hclaims, ?_⟩
    rw [lookup_unchanged hm (hd.holding.valid _ hmem) (hd.holding.homogeneous _ hmem) (hnot hmem)]
    exact hlookup

/-- A result with a verdict is retired for the whole life of the next daemon. -/
theorem retired_of_run {store : TestResultsStore} {events : List Event} {d : State} {c k : Text}
    {status : TestStatus} (hK : Separated K) (hwithin : ∀ e ∈ events, e.Within rc K)
    (hlookup : store.lookup c k = some status) (hstatus : resultIsDone status = true)
    (hrun : run (Daemon.step rc window) (start store) events = some d) : Retired c k status d := by
  have hstart : Exclusive rc K (start store) ∧ Retired c k status (start store) :=
    ⟨start_exclusive store, by simp [claims, start], hlookup⟩
  have hstep : ∀ d e d', Event.Within rc K e → Exclusive rc K d ∧ Retired c k status d →
      Daemon.step rc window d e = some d' → Exclusive rc K d' ∧ Retired c k status d' := by
    intro d e d' he hd hs
    have hd' := hd.1.step hK he hs
    exact ⟨hd', hd.2.step hstatus hd.1 hd' hs⟩
  exact (run_invariant hstep hwithin hstart hrun).2

/-- Whenever the daemon dies, the next one starts with the results of the last, without those that
a load drops: what was in progress is wanted again. Verdicts that it has loaded are never claimed
by it and never change, whatever it does. -/
theorem restart_resumes (rc : CiConfig) (window : ℕ) (io₀ io : TestResultsStore.LoadIo)
    (o₀ o : OutputDir) (clear₀ clear : Bool) (store : TestResultsStore) (events : List Event) (d : State)
    (hp : o₀.Produced) (hdirs₀ : ∀ c, (o₀.capnp c).isSome = true → TestResultsStore.loadable o₀ c = true)
    (hw₀ : ∀ c, (io₀.write c).outcome = .written)
    (hload : TestResultsStore.load io₀ o₀ clear₀ = some store)
    (hK : Separated (MatrixKeys rc events))
    (hnamed : ∀ key, MatrixKeys rc events key → Named key) (hwritten : ∀ e ∈ events, e.Written)
    (hrun : run (Daemon.step rc window) (start store) events = some d)
    (hfiles : ∀ c, o.capnp c = d.store.outputDir.capnp c)
    (hdirs : ∀ c, d.store.results c ≠ ∅ → TestResultsStore.loadable o c = true)
    (hw : ∀ c, (io.write c).outcome = .written) :
    ∃ s₁, TestResultsStore.load io o clear = some s₁ ∧
      (∀ c k, s₁.lookup c k =
        (d.store.lookup c k).filter (fun st => !TestResultsStore.dropStatus clear st)) ∧
      ∀ rc' window' events' d', Separated (MatrixKeys rc' events') →
        run (Daemon.step rc' window') (start s₁) events' = some d' → ∀ c k st,
          d.store.lookup c k = some st → resultIsDone st = true →
          TestResultsStore.dropStatus clear st = false →
            claims d' c k = 0 ∧ d'.store.lookup c k = some st := by
  obtain ⟨store', hload', hloads⟩ :=
    TestResultsStore.load_spec io₀ clear₀ o₀ hp (fun c _ _ _ => hw₀ c)
  obtain rfl : store' = store := Option.some.inj (hload'.symm.trans hload)
  have hstart : Persistent rc (MatrixKeys rc events) (start store') :=
    ⟨start_exclusive store', hloads.mirrors hdirs₀⟩
  have hnames : ∀ key, MatrixKeys rc events key → IsEntryName key.resultKey := by
    rintro key ⟨w, durations, hdesire, hkey⟩
    exact isEntryName_of_inMatrix hkey (hnamed key ⟨w, durations, hdesire, hkey⟩)
  have hd : Persistent rc (MatrixKeys rc events) d :=
    run_invariant (fun _ _ _ he h hstep => h.step hK hnames he hstep)
      (fun e he => ⟨within_matrixKeys e he, hwritten e he⟩) hstart hrun
  obtain ⟨s₁, hload₁, hlookup⟩ := hd.mirrors.load io o clear hw hfiles hdirs
  refine ⟨s₁, hload₁, hlookup, ?_⟩
  intro rc' window' events' d' hK' hrun' c k st hst hdone hdrop
  have hkept : s₁.lookup c k = some st := by
    rw [hlookup, hst]
    simp [Option.filter, hdrop]
  exact retired_of_run hK' within_matrixKeys hkept hdone hrun'

def longWorld : World := { bootWorld with git := fun _ => some (fun _ => some [List.replicate 40 'a']) }

def killedEvents : List Event :=
  [.refill (.remove (fun _ => true)), .refill .list, .refill .retain, .snapshot (List.replicate 40 'a'),
    .desire longWorld none, .refill (.submit 0), .refill .insert, .refill .done,
    .claim [0], .move 0 (.start 5), .move 0 (.mark (.written 5)), .move 0 (.update ⟨"1.0".toList, .written⟩)]

theorem eq_longKey_of_matrixKeys {key : JobKey} (hkey : MatrixKeys servedConfig killedEvents key) :
    key = { bootKey with commit := List.replicate 40 'a' } := by
  have hcells : ∀ spec ∈ buildTestSpecs servedConfig longWorld, ∀ c ∈ spec.commits,
      ∀ st ∈ spec.subtests, ∀ kernel ∈ spec.kernels,
        (⟨spec.user, spec.repo, c, kernel, spec.env, spec.test, st⟩ : JobKey) =
          { bootKey with commit := List.replicate 40 'a' } := by
    decide +kernel
  obtain ⟨w, durations, hmem, spec, age, c, st, kernel, hcell, rfl⟩ := hkey
  obtain ⟨rfl, -⟩ : w = longWorld ∧ durations = none := by simpa [killedEvents] using hmem
  exact hcells spec hcell.spec_mem c (List.mem_of_getElem? hcell.commit_at) st hcell.subtest_mem
    kernel hcell.kernel_mem

theorem restart_resumes_killed : ∃ d s₁,
    run (Daemon.step servedConfig 4) (start ⟨⟨∅, ∅⟩, ∅⟩) killedEvents = some d ∧
    d.store.lookup (List.replicate 40 'a') "boot.boot".toList = some .inprogress ∧
    TestResultsStore.load ⟨fun _ => ⟨"81.0".toList, .written⟩, ⟨fun _ _ _ => none, fun o _ _ => o⟩⟩
      d.store.outputDir false = some s₁ ∧
    s₁.lookup (List.replicate 40 'a') "boot.boot".toList = none := by
  let marked : OutputDir := BatchRun.writeStatus ⟨∅, ∅⟩ (List.replicate 40 'a') "boot.boot".toList
    "IN PROGRESS\n".toList (.written 5)
  obtain ⟨d, hrun, hstore⟩ : ∃ d,
      run (Daemon.step servedConfig 4) (start ⟨⟨∅, ∅⟩, ∅⟩) killedEvents = some d ∧
      d.store = TestResultsStore.update ⟨marked, ∅⟩ ⟨"1.0".toList, .written⟩ (List.replicate 40 'a')
        ((∅ : TestResultsMap).insert "boot.boot".toList ⟨.inprogress, 5, 0⟩) :=
    ⟨_, rfl, rfl⟩
  have hdir : marked.commits.contains (List.replicate 40 'a') = true := by decide +kernel
  have hprogress : d.store.lookup (List.replicate 40 'a') "boot.boot".toList = some .inprogress := by
    rw [hstore, TestResultsStore.lookup_update_of_some (TextMap.getElem?_insert _ _ _ _)]
  have hdirs : ∀ c, d.store.results c ≠ ∅ → TestResultsStore.loadable d.store.outputDir c = true := by
    intro c hne
    have hc : List.replicate 40 'a' = c := by
      by_contra hc
      rw [hstore, TestResultsStore.results_update, if_neg hc, TestResultsStore.results,
        TestResultsStore.commitResults] at hne
      simp at hne
    rw [← hc, hstore, TestResultsStore.loadable, TestResultsStore.commits_update, hdir]
    decide
  have hK : Separated (MatrixKeys servedConfig killedEvents) := by
    refine ⟨fun k k' hk hk' _ _ => (eq_longKey_of_matrixKeys hk).trans (eq_longKey_of_matrixKeys hk').symm, ?_⟩
    intro k hk
    rw [eq_longKey_of_matrixKeys hk]
    constructor <;> decide
  obtain ⟨s₁, hload, hkept, -⟩ := restart_resumes servedConfig 4
    ⟨fun _ => ⟨"80.0".toList, .written⟩, ⟨fun _ _ _ => none, fun o _ _ => o⟩⟩
    ⟨fun _ => ⟨"81.0".toList, .written⟩, ⟨fun _ _ _ => none, fun o _ _ => o⟩⟩
    ⟨∅, ∅⟩ d.store.outputDir false false ⟨⟨∅, ∅⟩, ∅⟩ killedEvents d
    (by simp [OutputDir.Produced, OutputDir.capnp]) (by simp [OutputDir.capnp]) (fun _ => rfl) rfl hK
    (fun key hkey => by rw [eq_longKey_of_matrixKeys hkey]; constructor <;> decide +kernel)
    (by simp [killedEvents, Event.Written]) hrun (fun _ => rfl) hdirs (fun _ => rfl)
  refine ⟨d, s₁, hrun, hprogress, hload, ?_⟩
  rw [hkept, hprogress]
  rfl

end Daemon
end KtestCi
