import KtestCi.EventRuns
import KtestCi.TextSearch
import Mathlib.Logic.Function.Basic

/-!
# The cache of subtests

`get_subtests` reads the modification time of a test file, returns the cached listing if that
is tagged with this time, and otherwise runs the file and caches what it listed under the time
read before. The file may be rewritten at any point, so a listing can be cached under the time
of other contents. It is never found again: a rewritten file does not get an earlier time back.
-/

namespace KtestCi
namespace SubtestsCache

open EventRuns

/-- The characters at which `split_whitespace` cuts: those with the property `White_Space`. -/
def isWhitespace (c : Char) : Bool :=
  (9 ≤ c.toNat && c.toNat ≤ 13) || (0x2000 ≤ c.toNat && c.toNat ≤ 0x200A) ||
    [0x20, 0x85, 0xA0, 0x1680, 0x2028, 0x2029, 0x202F, 0x205F, 0x3000].contains c.toNat

def splitWhitespace (t : Text) : List Text :=
  (t.splitOnP isWhitespace).filter (fun w => !w.isEmpty)

variable {μ γ : Type*}

/-- The listings found so far, with the modification time they are tagged with. -/
abbrev Cache (μ : Type*) := Text → Option (μ × List Text)

def lookup [DecidableEq μ] (cache : Cache μ) (testPath : Text) (mtime : Option μ) : Option (List Text) :=
  match mtime, cache testPath with
  | some mt, some (cachedMt, subtests) => if cachedMt = mt then some subtests else none
  | _, _ => none

/-- The subtests in what `list-tests` printed. A file that does not start, or that does not
exit with zero, has none. -/
def listing (output : Option Text) : List Text :=
  match output with
  | some stdout => splitWhitespace stdout
  | none => []

/-- Cache a listing, unless it is empty or the file could not be read before. -/
def insert (cache : Cache μ) (testPath : Text) (mtime : Option μ) (subtests : List Text) : Cache μ :=
  if subtests.isEmpty then cache else match mtime with
    | some mt => Function.update cache testPath (some (mt, subtests))
    | none => cache

inductive Stage (μ : Type*)
  | statted (mtime : Option μ)
  | missed (mtime : Option μ)
  | listed (mtime : Option μ) (subtests : List Text)

def Stage.mtime : Stage μ → Option μ
  | .statted mtime => mtime
  | .missed mtime => mtime
  | .listed mtime _ => mtime

/-- A call of `get_subtests`, with what it could have seen: the contents of the file when the
call read its time, all contents since then, and whether its `list-tests` failed. -/
structure Call (μ γ : Type*) where
  testPath : Text
  stage : Stage μ
  atStat : Option γ
  seen : List γ
  failed : Bool

/-- What a call returned, and whether from the cache. -/
structure Return (γ : Type*) where
  testPath : Text
  hit : Bool
  subtests : List Text
  atStat : Option γ
  seen : List γ
  failed : Bool

def Call.return (call : Call μ γ) (hit : Bool) (subtests : List Text) : Return γ :=
  ⟨call.testPath, hit, subtests, call.atStat, call.seen, call.failed⟩

/-- The test files with their modification times, the times that each has had, the cache, the
call under way and the returns so far. -/
structure State (μ γ : Type*) where
  files : Text → Option (μ × γ)
  used : Text → List μ
  cache : Cache μ
  call : Option (Call μ γ)
  returned : List (Return γ)

inductive Event (μ γ : Type*)
  | modify (path : Text) (mtime : μ) (contents : γ)
  | remove (path : Text)
  | stat (testPath : Text) (fails : Bool)
  | lookup
  | list (fails : Bool)
  | finish

/-- A file that is written while a call is about it. -/
def Call.observe (path : Text) (contents : γ) (call : Call μ γ) : Call μ γ :=
  if call.testPath = path then { call with seen := contents :: call.seen } else call

/-- A step of the files or of `get_subtests`. Calls do not overlap; `stdout` is what
`list-tests` of a file with given contents prints. -/
def step [DecidableEq μ] (stdout : γ → Text) (s : State μ γ) : Event μ γ → Option (State μ γ)
  | .modify path mtime contents =>
    if mtime ∉ s.used path then
      some { s with
        files := Function.update s.files path (some (mtime, contents))
        used := Function.update s.used path (mtime :: s.used path)
        call := s.call.map (Call.observe path contents) }
    else none
  | .remove path => some { s with files := Function.update s.files path none }
  | .stat testPath fails =>
    if s.call.isNone then
      let contents := (s.files testPath).map Prod.snd
      let mtime := if fails then none else (s.files testPath).map Prod.fst
      some { s with call := some ⟨testPath, .statted mtime, contents, contents.toList, false⟩ }
    else none
  | .lookup =>
    match s.call with
    | some call => match call.stage with
      | .statted mtime => match lookup s.cache call.testPath mtime with
        | some subtests =>
          some { s with call := none, returned := call.return true subtests :: s.returned }
        | none => some { s with call := some { call with stage := .missed mtime } }
      | _ => none
    | none => none
  | .list fails =>
    match s.call with
    | some call => match call.stage with
      | .missed mtime =>
        let output := if fails then none else (s.files call.testPath).map (fun f => stdout f.2)
        some { s with
          call := some { call with stage := .listed mtime (listing output), failed := output.isNone } }
      | _ => none
    | none => none
  | .finish =>
    match s.call with
    | some call => match call.stage with
      | .listed mtime subtests =>
        some { s with
          cache := insert s.cache call.testPath mtime subtests
          call := none
          returned := call.return false subtests :: s.returned }
      | _ => none
    | none => none

def start (files : Text → Option (μ × γ)) : State μ γ :=
  ⟨files, fun path => ((files path).map Prod.fst).toList, fun _ => none, none, []⟩

/-- What a call may return: what it listed itself of contents that the file had during the
call; the cached listing of the contents that the file had when its time was read; or
nothing, after its own `list-tests` failed. -/
inductive Justified (stdout : γ → Text) (r : Return γ) : Prop
  | listed (c : γ) (own : r.hit = false) (hc : c ∈ r.seen) (h : r.subtests = splitWhitespace (stdout c))
  | current (c : γ) (hc : r.atStat = some c) (h : r.subtests = splitWhitespace (stdout c))
    (hne : r.subtests ≠ [])
  | failed (own : r.hit = false) (hfailed : r.failed = true) (h : r.subtests = [])

section Invariant

variable (stdout : γ → Text)

structure CallInv (s : State μ γ) (call : Call μ γ) : Prop where
  seen : ∀ mt c, s.files call.testPath = some (mt, c) → c ∈ call.seen
  used : ∀ mt, call.stage.mtime = some mt → mt ∈ s.used call.testPath
  /-- An entry with the time that was read lists the contents of that moment. -/
  hit : ∀ mt subtests, call.stage = .statted (some mt) → s.cache call.testPath = some (mt, subtests) →
    ∃ c, call.atStat = some c ∧ subtests = splitWhitespace (stdout c)
  own : ∀ mtime subtests, call.stage = .listed mtime subtests →
    (call.failed = true ∧ subtests = []) ∨ ∃ c ∈ call.seen, subtests = splitWhitespace (stdout c)
  /-- If the file still has the time that was read, it has not been written since. -/
  tagged : ∀ mt subtests c, call.stage = .listed (some mt) subtests → subtests ≠ [] →
    s.files call.testPath = some (mt, c) → subtests = splitWhitespace (stdout c)

structure Inv (s : State μ γ) : Prop where
  filesUsed : ∀ path mt c, s.files path = some (mt, c) → mt ∈ s.used path
  cacheUsed : ∀ path mt subtests, s.cache path = some (mt, subtests) → mt ∈ s.used path
  nonempty : ∀ path mt subtests, s.cache path = some (mt, subtests) → subtests ≠ []
  /-- An entry with the time of the file lists its contents. -/
  current : ∀ path mt subtests c, s.cache path = some (mt, subtests) → s.files path = some (mt, c) →
    subtests = splitWhitespace (stdout c)
  call : ∀ call, s.call = some call → CallInv stdout s call
  returned : ∀ r ∈ s.returned, Justified stdout r

theorem inv_start (files : Text → Option (μ × γ)) : Inv stdout (start files) where
  filesUsed := by
    intro path mt c h
    have hfile : files path = some (mt, c) := h
    simp [start, hfile]
  cacheUsed := by simp [start]
  nonempty := by simp [start]
  current := by simp [start]
  call := by simp [start]
  returned := by simp [start]

variable {stdout} {s s' : State μ γ}

/-- After a file is written, a time that it had before is not its time. -/
theorem files_update_eq {path path' : Text} {mtime mt : μ} {contents c : γ}
    (hfresh : mtime ∉ s.used path) (hused : mt ∈ s.used path')
    (h : Function.update s.files path (some (mtime, contents)) path' = some (mt, c)) :
    path' ≠ path ∧ s.files path' = some (mt, c) := by
  rcases update_eq_some h with ⟨rfl, hnew⟩ | hold
  · obtain ⟨rfl, -⟩ := Prod.mk.inj (Option.some.inj hnew)
    exact absurd hused hfresh
  · exact hold

theorem mem_used_update {path path' : Text} {mtime mt : μ} (h : mt ∈ s.used path') :
    mt ∈ Function.update s.used path (mtime :: s.used path) path' := by
  by_cases hpath : path' = path
  · subst hpath
    rw [Function.update_self]
    exact List.mem_cons_of_mem _ h
  · rwa [Function.update_of_ne hpath]

theorem files_remove_eq {path path' : Text} {f : μ × γ}
    (h : Function.update s.files path none path' = some f) : s.files path' = some f := by
  rcases update_eq_some h with ⟨-, hnone⟩ | ⟨-, hold⟩
  · cases hnone
  · exact hold

@[simp] theorem observe_testPath (path : Text) (contents : γ) (call : Call μ γ) :
    (call.observe path contents).testPath = call.testPath := by
  unfold Call.observe
  split_ifs <;> rfl

@[simp] theorem observe_stage (path : Text) (contents : γ) (call : Call μ γ) :
    (call.observe path contents).stage = call.stage := by
  unfold Call.observe
  split_ifs <;> rfl

@[simp] theorem observe_atStat (path : Text) (contents : γ) (call : Call μ γ) :
    (call.observe path contents).atStat = call.atStat := by
  unfold Call.observe
  split_ifs <;> rfl

@[simp] theorem observe_failed (path : Text) (contents : γ) (call : Call μ γ) :
    (call.observe path contents).failed = call.failed := by
  unfold Call.observe
  split_ifs <;> rfl

theorem mem_seen_observe {path : Text} {contents c : γ} {call : Call μ γ} (h : c ∈ call.seen) :
    c ∈ (call.observe path contents).seen := by
  unfold Call.observe
  split_ifs
  · exact List.mem_cons_of_mem _ h
  · exact h

theorem CallInv.modify {call : Call μ γ} {path : Text} {mtime : μ} {contents : γ}
    (h : CallInv stdout s call) (hfresh : mtime ∉ s.used path) :
    CallInv stdout { s with
      files := Function.update s.files path (some (mtime, contents))
      used := Function.update s.used path (mtime :: s.used path)
      call := s.call.map (Call.observe path contents) } (call.observe path contents) where
  seen := by
    intro mt c hc
    simp only [observe_testPath] at hc
    rcases update_eq_some hc with ⟨hpath, hnew⟩ | ⟨-, hold⟩
    · obtain ⟨-, rfl⟩ := Prod.mk.inj (Option.some.inj hnew)
      simp [Call.observe, hpath]
    · exact mem_seen_observe (h.seen mt c hold)
  used := by
    intro mt hmt
    simp only [observe_testPath, observe_stage] at hmt ⊢
    exact mem_used_update (h.used mt hmt)
  hit := by
    intro mt subtests hstage hcache
    simp only [observe_testPath, observe_stage, observe_atStat] at hstage hcache ⊢
    exact h.hit mt subtests hstage hcache
  own := by
    intro mt subtests hstage
    simp only [observe_stage, observe_failed] at hstage ⊢
    rcases h.own mt subtests hstage with hfailed | ⟨c, hc, hlist⟩
    · exact .inl hfailed
    · exact .inr ⟨c, mem_seen_observe hc, hlist⟩
  tagged := by
    intro mt subtests c hstage hne hc
    simp only [observe_testPath, observe_stage] at hstage hc
    have hused := h.used mt (by rw [hstage]; rfl)
    exact h.tagged mt subtests c hstage hne (files_update_eq hfresh hused hc).2

theorem Inv.modify {path : Text} {mtime : μ} {contents : γ} (h : Inv stdout s)
    (hfresh : mtime ∉ s.used path) :
    Inv stdout { s with
      files := Function.update s.files path (some (mtime, contents))
      used := Function.update s.used path (mtime :: s.used path)
      call := s.call.map (Call.observe path contents) } where
  filesUsed := by
    intro path' mt c hc
    rcases update_eq_some hc with ⟨rfl, hnew⟩ | ⟨-, hold⟩
    · obtain ⟨rfl, -⟩ := Prod.mk.inj (Option.some.inj hnew)
      simp
    · exact mem_used_update (h.filesUsed path' mt c hold)
  cacheUsed := by
    intro path' mt subtests hcache
    exact mem_used_update (h.cacheUsed path' mt subtests hcache)
  nonempty := h.nonempty
  current := by
    intro path' mt subtests c hcache hc
    have hused := h.cacheUsed path' mt subtests hcache
    exact h.current path' mt subtests c hcache (files_update_eq hfresh hused hc).2
  call := by
    intro call hcall
    obtain ⟨call', hcall', rfl⟩ := Option.map_eq_some_iff.mp hcall
    exact (h.call call' hcall').modify hfresh
  returned := h.returned

theorem Inv.remove (h : Inv stdout s) (path : Text) :
    Inv stdout { s with files := Function.update s.files path none } where
  filesUsed := fun path' mt c hc => h.filesUsed path' mt c (files_remove_eq hc)
  cacheUsed := h.cacheUsed
  nonempty := h.nonempty
  current := fun path' mt subtests c hcache hc =>
    h.current path' mt subtests c hcache (files_remove_eq hc)
  call := by
    intro call hcall
    have hinv := h.call call hcall
    exact ⟨fun mt c hc => hinv.seen mt c (files_remove_eq hc), hinv.used, hinv.hit, hinv.own,
      fun mt subtests c hstage hne hc => hinv.tagged mt subtests c hstage hne (files_remove_eq hc)⟩
  returned := h.returned

theorem Inv.stat (h : Inv stdout s) (testPath : Text) (fails : Bool) :
    Inv stdout { s with call := some ⟨testPath,
      .statted (if fails then none else (s.files testPath).map Prod.fst),
      (s.files testPath).map Prod.snd, ((s.files testPath).map Prod.snd).toList, false⟩ } where
  filesUsed := h.filesUsed
  cacheUsed := h.cacheUsed
  nonempty := h.nonempty
  current := h.current
  call := by
    rintro call hcall
    obtain rfl := Option.some.inj hcall
    have hread : ∀ mt, (if fails then none else (s.files testPath).map Prod.fst) = some mt →
        ∃ c, s.files testPath = some (mt, c) := by
      intro mt hmt
      cases fails with
      | true => cases hmt
      | false =>
        obtain ⟨⟨mt', c⟩, hfile, rfl⟩ := Option.map_eq_some_iff.mp hmt
        exact ⟨c, hfile⟩
    refine ⟨?_, ?_, ?_, ?_, ?_⟩
    · intro mt c hc
      have hfile : s.files testPath = some (mt, c) := hc
      simp [hfile]
    · intro mt hmt
      obtain ⟨c, hfile⟩ := hread mt hmt
      exact h.filesUsed testPath mt c hfile
    · intro mt subtests hstage hcache
      obtain ⟨c, hfile⟩ := hread mt (Stage.statted.inj hstage)
      exact ⟨c, by simp [hfile], h.current testPath mt subtests c hcache hfile⟩
    · intro mtime subtests hstage
      cases hstage
    · intro mt subtests c hstage
      cases hstage
  returned := h.returned

theorem Inv.return {cache : Cache μ} {r : Return γ} (h : Inv stdout { s with cache := cache, call := none })
    (hr : Justified stdout r) :
    Inv stdout { s with cache := cache, call := none, returned := r :: s.returned } :=
  ⟨h.filesUsed, h.cacheUsed, h.nonempty, h.current, by simp, List.forall_mem_cons.mpr ⟨hr, h.returned⟩⟩

theorem Inv.withCall (h : Inv stdout s) {call : Option (Call μ γ)}
    (hcall : ∀ c, call = some c → CallInv stdout s c) : Inv stdout { s with call := call } := by
  refine ⟨h.filesUsed, h.cacheUsed, h.nonempty, h.current, ?_, h.returned⟩
  intro c hc
  have hinv := hcall c hc
  exact ⟨hinv.seen, hinv.used, hinv.hit, hinv.own, hinv.tagged⟩

theorem insert_eq_some {cache : Cache μ} {testPath path : Text} {mtime : Option μ}
    {subtests subtests' : List Text} {mt : μ}
    (h : insert cache testPath mtime subtests path = some (mt, subtests')) :
    cache path = some (mt, subtests') ∨
      path = testPath ∧ mtime = some mt ∧ subtests = subtests' ∧ subtests ≠ [] := by
  unfold insert at h
  split_ifs at h with hempty
  · exact .inl h
  · cases mtime with
    | none => exact .inl h
    | some mt' =>
      rcases update_eq_some h with ⟨hpath, hnew⟩ | ⟨-, hold⟩
      · obtain ⟨rfl, rfl⟩ := Prod.mk.inj (Option.some.inj hnew)
        exact .inr ⟨hpath, rfl, rfl, by simpa using hempty⟩
      · exact .inl hold

/-- What a call caches lists the contents of the file, if that still has the time read. -/
theorem Inv.insert {call : Call μ γ} {mtime : Option μ} {subtests : List Text} (h : Inv stdout s)
    (hcall : CallInv stdout s call) (hstage : call.stage = .listed mtime subtests) :
    Inv stdout { s with cache := insert s.cache call.testPath mtime subtests, call := none } where
  filesUsed := h.filesUsed
  cacheUsed := by
    intro path mt subtests' hcache
    rcases insert_eq_some hcache with hold | ⟨rfl, rfl, rfl, hne⟩
    · exact h.cacheUsed path mt subtests' hold
    · exact hcall.used mt (by rw [hstage]; rfl)
  nonempty := by
    intro path mt subtests' hcache
    rcases insert_eq_some hcache with hold | ⟨rfl, rfl, rfl, hne⟩
    · exact h.nonempty path mt subtests' hold
    · exact hne
  current := by
    intro path mt subtests' c hcache hc
    rcases insert_eq_some hcache with hold | ⟨rfl, rfl, rfl, hne⟩
    · exact h.current path mt subtests' c hold hc
    · exact hcall.tagged mt subtests c hstage hne hc
  call := by simp
  returned := h.returned

variable [DecidableEq μ]

theorem lookup_eq_some {cache : Cache μ} {testPath : Text} {mtime : Option μ} {subtests : List Text}
    (h : lookup cache testPath mtime = some subtests) :
    ∃ mt, mtime = some mt ∧ cache testPath = some (mt, subtests) := by
  unfold lookup at h
  split at h
  · rename_i mt cachedMt subtests' hcache
    split_ifs at h with hmt
    subst hmt
    exact ⟨cachedMt, rfl, by rw [hcache, Option.some.inj h]⟩
  · cases h

theorem step_lookup (h : step stdout s .lookup = some s') : ∃ call mtime,
    s.call = some call ∧ call.stage = .statted mtime ∧
      ((∃ subtests, lookup s.cache call.testPath mtime = some subtests ∧
          s' = { s with call := none, returned := call.return true subtests :: s.returned }) ∨
        s' = { s with call := some { call with stage := .missed mtime } }) := by
  cases hcall : s.call with
  | none => simp [step, hcall] at h
  | some call =>
    cases hstage : call.stage with
    | statted mtime =>
      refine ⟨call, mtime, rfl, hstage, ?_⟩
      cases hlookup : lookup s.cache call.testPath mtime with
      | some subtests =>
        simp only [step, hcall, hstage, hlookup, Option.some.injEq] at h
        exact .inl ⟨subtests, rfl, h.symm⟩
      | none =>
        simp only [step, hcall, hstage, hlookup, Option.some.injEq] at h
        exact .inr h.symm
    | missed mtime => simp [step, hcall, hstage] at h
    | listed mtime subtests => simp [step, hcall, hstage] at h

theorem step_list {fails : Bool} (h : step stdout s (.list fails) = some s') : ∃ call mtime output,
    s.call = some call ∧ call.stage = .missed mtime ∧
      (output = none ∨ ∃ mt c, s.files call.testPath = some (mt, c) ∧ output = some (stdout c)) ∧
      s' = { s with call := some { call with
        stage := .listed mtime (listing output), failed := output.isNone } } := by
  cases hcall : s.call with
  | none => simp [step, hcall] at h
  | some call =>
    cases hstage : call.stage with
    | missed mtime =>
      simp only [step, hcall, hstage, Option.some.injEq] at h
      refine ⟨call, mtime, _, rfl, hstage, ?_, h.symm⟩
      cases fails with
      | true => exact .inl rfl
      | false => cases hfile : s.files call.testPath with
        | none => exact .inl rfl
        | some f => exact .inr ⟨f.1, f.2, rfl, rfl⟩
    | statted mtime => simp [step, hcall, hstage] at h
    | listed mtime subtests => simp [step, hcall, hstage] at h

theorem step_finish (h : step stdout s .finish = some s') : ∃ call mtime subtests,
    s.call = some call ∧ call.stage = .listed mtime subtests ∧ s' = { s with
      cache := insert s.cache call.testPath mtime subtests
      call := none
      returned := call.return false subtests :: s.returned } := by
  cases hcall : s.call with
  | none => simp [step, hcall] at h
  | some call =>
    cases hstage : call.stage with
    | listed mtime subtests =>
      simp only [step, hcall, hstage, Option.some.injEq] at h
      exact ⟨call, mtime, subtests, rfl, hstage, h.symm⟩
    | statted mtime => simp [step, hcall, hstage] at h
    | missed mtime => simp [step, hcall, hstage] at h

theorem Inv.lookup (h : Inv stdout s) (hstep : step stdout s .lookup = some s') : Inv stdout s' := by
  obtain ⟨call, mtime, hcall, hstage, ⟨subtests, hlookup, rfl⟩ | rfl⟩ := step_lookup hstep
  · obtain ⟨mt, rfl, hcache⟩ := lookup_eq_some hlookup
    obtain ⟨c, hc, hlist⟩ := (h.call call hcall).hit mt subtests hstage hcache
    refine Inv.return (h.withCall (by simp)) (.current c hc hlist ?_)
    exact h.nonempty call.testPath mt subtests hcache
  · have hinv := h.call call hcall
    apply h.withCall
    rintro _ ⟨⟩
    refine ⟨hinv.seen, ?_, ?_, ?_, ?_⟩
    · intro mt hmt
      exact hinv.used mt (by rw [hstage]; exact hmt)
    · rintro mt subtests ⟨⟩
    · rintro mtime subtests ⟨⟩
    · rintro mt subtests c ⟨⟩

theorem Inv.list {fails : Bool} (h : Inv stdout s) (hstep : step stdout s (.list fails) = some s') :
    Inv stdout s' := by
  obtain ⟨call, mtime, output, hcall, hstage, houtput, rfl⟩ := step_list hstep
  have hinv := h.call call hcall
  apply h.withCall
  rintro _ ⟨⟩
  refine ⟨hinv.seen, ?_, ?_, ?_, ?_⟩
  · intro mt hmt
    exact hinv.used mt (by rw [hstage]; exact hmt)
  · rintro mt subtests ⟨⟩
  · rintro _ _ ⟨⟩
    rcases houtput with rfl | ⟨mt, c, hfile, rfl⟩
    · exact .inl ⟨rfl, rfl⟩
    · exact .inr ⟨c, hinv.seen mt c hfile, rfl⟩
  · rintro mt _ c ⟨⟩ hne hc
    rcases houtput with rfl | ⟨mt', c', hfile, rfl⟩
    · exact absurd rfl hne
    · obtain ⟨rfl, rfl⟩ := Prod.mk.inj (Option.some.inj (hfile.symm.trans hc))
      rfl

theorem Inv.finish (h : Inv stdout s) (hstep : step stdout s .finish = some s') : Inv stdout s' := by
  obtain ⟨call, mtime, subtests, hcall, hstage, rfl⟩ := step_finish hstep
  have hinv := h.call call hcall
  apply Inv.return (h.insert hinv hstage)
  rcases hinv.own mtime subtests hstage with ⟨hfailed, hnil⟩ | ⟨c, hc, hlist⟩
  · exact .failed rfl hfailed hnil
  · exact .listed c rfl hc hlist

theorem inv_step {e : Event μ γ} (h : Inv stdout s) (hstep : step stdout s e = some s') :
    Inv stdout s' := by
  cases e with
  | modify path mtime contents =>
    obtain ⟨hfresh, rfl⟩ := guard_eq_some hstep
    exact h.modify hfresh
  | remove path =>
    obtain rfl := Option.some.inj hstep
    exact h.remove path
  | stat testPath fails =>
    obtain ⟨-, rfl⟩ := guard_eq_some hstep
    exact h.stat testPath fails
  | lookup => exact h.lookup hstep
  | list fails => exact h.list hstep
  | finish => exact h.finish hstep

theorem inv_run {files : Text → Option (μ × γ)} {es : List (Event μ γ)}
    (hrun : run (step stdout) (start files) es = some s) : Inv stdout s :=
  run_invariant_all (fun _ _ _ => inv_step) (inv_start stdout files) hrun

end Invariant

section Runs

variable [DecidableEq μ] {stdout : γ → Text} {s : State μ γ}

theorem exists_return {call : Call μ γ} (hcall : s.call = some call) :
    ∃ es t r, run (step stdout) s es = some t ∧ t.call = none ∧ t.returned = r :: s.returned ∧
      r.testPath = call.testPath := by
  cases hstage : call.stage with
  | statted mtime =>
    cases hlookup : lookup s.cache call.testPath mtime with
    | some subtests =>
      have hrun : run (step stdout) s [.lookup] =
          some { s with call := none, returned := call.return true subtests :: s.returned } := by
        simp only [run, step, hcall, hstage, hlookup, Option.bind_some]
      exact ⟨_, _, _, hrun, rfl, rfl, rfl⟩
    | none =>
      have hrun : run (step stdout) s [.lookup, .list true, .finish] = some { s with
          cache := insert s.cache call.testPath mtime []
          call := none
          returned := Call.return { call with failed := true } false [] :: s.returned } := by
        simp only [run, step, hcall, hstage, hlookup, Option.bind_some]
        rfl
      exact ⟨_, _, _, hrun, rfl, rfl, rfl⟩
  | missed mtime =>
    have hrun : run (step stdout) s [.list true, .finish] = some { s with
        cache := insert s.cache call.testPath mtime []
        call := none
        returned := Call.return { call with failed := true } false [] :: s.returned } := by
      simp only [run, step, hcall, hstage, Option.bind_some]
      rfl
    exact ⟨_, _, _, hrun, rfl, rfl, rfl⟩
  | listed mtime subtests =>
    have hrun : run (step stdout) s [.finish] = some { s with
        cache := insert s.cache call.testPath mtime subtests
        call := none
        returned := call.return false subtests :: s.returned } := by
      simp only [run, step, hcall, hstage, Option.bind_some]
    exact ⟨_, _, _, hrun, rfl, rfl, rfl⟩

/-- However calls and rewrites of the files interleave, what a call returns is justified, and
a call that is under way returns. -/
theorem returned_justified (files : Text → Option (μ × γ)) {es : List (Event μ γ)}
    (hrun : run (step stdout) (start files) es = some s) :
    (∀ r ∈ s.returned, Justified stdout r) ∧
      ∀ call, s.call = some call → ∃ es' t r, run (step stdout) s es' = some t ∧ t.call = none ∧
        t.returned = r :: s.returned ∧ r.testPath = call.testPath := by
  refine ⟨(inv_run hrun).returned, ?_⟩
  intro call hcall
  exact exists_return hcall

end Runs

/-- A file that is rewritten between the stat and the listing of the first of three calls. The
second one lists again, and the third one finds that in the cache. -/
theorem returned_justified_rewritten :
    let path := "tests/fs.ktest".toList
    let files : Text → Option (ℕ × Text) := fun p => if p = path then some (1, "quota".toList) else none
    let es : List (Event ℕ Text) := [.stat path false, .lookup, .modify path 2 "acl quota".toList,
      .list false, .finish, .stat path false, .lookup, .list false, .finish, .stat path false, .lookup]
    let subtests := ["acl".toList, "quota".toList]
    ∃ s, run (step id) (start files) es = some s ∧
      s.returned.map (fun r => (r.hit, r.subtests)) = [(true, subtests), (false, subtests), (false, subtests)] ∧
      ∀ r ∈ s.returned, Justified id r := by
  intro path files es subtests
  have hreturned : (run (step id) (start files) es).map
      (fun s => s.returned.map (fun r => (r.hit, r.subtests))) =
        some [(true, subtests), (false, subtests), (false, subtests)] := by
    decide
  obtain ⟨s, hrun, hs⟩ := Option.map_eq_some_iff.mp hreturned
  exact ⟨s, hrun, hs, (returned_justified files hrun).1⟩

end SubtestsCache
end KtestCi
