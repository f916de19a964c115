import KtestCi.CommitPrefixes
import KtestCi.EventRuns

/-!
# The mirror of a client

A client of the CI keeps copies of the capnp files of the commits it shows. `prefetch_capnp`
asks for the first five commits each time, naming the modification time of the copy, and for
the others only if there is no copy. Times are compared in whole seconds, and the time of a
copy is that of its writing: what the server publishes before the end of that second may be
missed.
-/

namespace KtestCi
open EventRuns

/-- A file of the server, with its modification time in nanoseconds. -/
structure PublishedFile where
  file : CapnpFile
  mtime : ℤ
  deriving DecidableEq

/-- A time as a header has it, in whole seconds. -/
def httpDate (t : ℤ) : ℤ := t / 1000000000

inductive HttpAnswer where
  | notModified
  | ok (body : CapnpFile)
  | notFound

/-- What HTTP says of a request for a file, with or without a date. A file that is newer than the
date is sent. -/
structure FollowsHttp (server : Option PublishedFile → Option ℤ → HttpAnswer) : Prop where
  notFound : ∀ since, server none since = .notFound
  unconditional : ∀ p, server (some p) none = .ok p.file
  conditional : ∀ p since, server (some p) (some since) = .ok p.file ∨
    server (some p) (some since) = .notModified ∧ httpDate p.mtime ≤ since

def HttpAnswer.response (write : FetchWrite) : HttpAnswer → Response
  | notModified => .notModified
  | ok body => .ok (some (body, write))
  | notFound => .notFound

def Response.stored : Response → Option CapnpFile
  | ok (some (_, .cut)) => some .unreadable
  | ok (some (file, .written)) => some file
  | _ => none

/-- The server's files, the client's copies and when they were written, the commits that the
threads have still to ask for, and the answers that have not been dealt with. -/
structure Mirror where
  served : Text → Option PublishedFile
  cache : OutputDir
  mtime : Text → ℤ
  todo : List Text
  answers : List (Text × Response)

namespace Mirror

def since (m : Mirror) (commitId : Text) : Option ℤ :=
  if (m.cache.capnp commitId).isSome then some (httpDate (m.mtime commitId)) else none

end Mirror

/-- The server publishes or removes a file, a client calls `prefetch_capnp`, one of its threads
sends a request, which may be lost, and goes on with an answer. -/
inductive MirrorEvent where
  | publishes (commitId : Text) (p : PublishedFile)
  | removes (commitId : Text)
  | prefetches (commitIds : List Text)
  | asks (commitId : Text) (write : Option FetchWrite)
  | receives (i : ℕ) (clock : ℤ)

namespace Mirror

def step (server : Option PublishedFile → Option ℤ → HttpAnswer) (m : Mirror) : MirrorEvent → Option Mirror
  | .publishes c p => some { m with served := Function.update m.served c (some p) }
  | .removes c => some { m with served := Function.update m.served c none }
  | .prefetches commitIds =>
    if m.todo.isEmpty && m.answers.isEmpty then some { m with todo := toFetch m.cache commitIds } else none
  | .asks c write =>
    if m.todo.contains c then
      let response := match write with
        | none => .failed
        | some write => (server (m.served c) (m.since c)).response write
      some { m with todo := m.todo.erase c, answers := m.answers ++ [(c, response)] }
    else none
  | .receives i clock => match m.answers[i]? with
    | none => none
    | some (c, response) => some { m with
        cache := (fetchCapnpCached m.cache c response).1
        mtime := if response.stored.isSome then Function.update m.mtime c clock else m.mtime
        answers := m.answers.eraseIdx i }

/-- Bodies are written to the end, and no file is published while an answer for it is under way or
in the second of its copy's time, or before. -/
def inTime (m : Mirror) : MirrorEvent → Bool
  | .publishes c p => m.answers.all (fun a => a.1 != c) &&
      ((m.cache.capnp c).isNone || decide (httpDate (m.mtime c) < httpDate p.mtime))
  | .asks _ (some write) => write == .written
  | _ => true

end Mirror

/-- The event is no call, and neither changes the server's file of a commit nor loses a request for
it. -/
def MirrorEvent.keeps (commitId : Text) : MirrorEvent → Bool
  | .publishes c _ | .removes c | .asks c none => c != commitId
  | _ => true

def MirrorEvent.isCall : MirrorEvent → Bool
  | .prefetches _ => true
  | _ => false

theorem capnp_fetchCapnpCached (o : OutputDir) (c : Text) (response : Response) (c' : Text) :
    (fetchCapnpCached o c response).1.capnp c' =
      if c = c' then response.stored.or (o.capnp c') else o.capnp c' := by
  have hinsert : ∀ file, OutputDir.capnp { o with files := o.files.insert (capnpName c) file } c' =
      if c = c' then some file else o.capnp c' := by
    intro file
    rw [OutputDir.capnp, TextMap.getElem?_insert]
    by_cases hc : c = c'
    · simp [hc]
    · have hname : capnpName c ≠ capnpName c' := fun h => hc (OutputDir.capnpName_inj h)
      rw [if_neg hname, if_neg hc]
      rfl
  cases response with
  | failed => simp [fetchCapnpCached, Response.stored]
  | notModified => simp [fetchCapnpCached, Response.stored]
  | notFound => simp [fetchCapnpCached, Response.stored]
  | status code => simp [fetchCapnpCached, Response.stored]
  | ok body =>
    cases body with
    | none => simp [fetchCapnpCached, Response.stored]
    | some body =>
      obtain ⟨file, write⟩ := body
      cases write with
      | failed => simp [fetchCapnpCached, Response.stored]
      | cut => simpa [fetchCapnpCached, Response.stored] using hinsert .unreadable
      | written => simpa [fetchCapnpCached, Response.stored] using hinsert file

namespace Mirror

variable {server : Option PublishedFile → Option ℤ → HttpAnswer} {m m' : Mirror} {e : MirrorEvent}

/-- Whatever the server has and the client has not is newer than the copy. -/
structure Traces (m : Mirror) : Prop where
  answers : ∀ c body write, (c, Response.ok (some (body, write))) ∈ m.answers → write = .written ∧
    ∀ p, m.served c = some p → p.file = body
  copies : ∀ c file p, m.cache.capnp c = some file → m.served c = some p →
    p.file = file ∨ httpDate (m.mtime c) < httpDate p.mtime

/-- The answer of a server that follows HTTP carries the file as it is, or the copy is as new. -/
theorem response_cases (hhttp : FollowsHttp server) (m : Mirror) (c : Text) (write : FetchWrite) :
    (m.served c = none ∧ (server (m.served c) (m.since c)).response write = .notFound) ∨
      ∃ p, m.served c = some p ∧
        ((server (m.served c) (m.since c)).response write = .ok (some (p.file, write)) ∨
          ((server (m.served c) (m.since c)).response write = .notModified ∧
            (m.cache.capnp c).isSome = true ∧ httpDate p.mtime ≤ httpDate (m.mtime c))) := by
  cases hp : m.served c with
  | none => exact .inl ⟨rfl, by rw [hhttp.notFound]; rfl⟩
  | some p =>
    refine .inr ⟨p, rfl, ?_⟩
    rw [since]
    cases hcopy : (m.cache.capnp c).isSome with
    | false => exact .inl (by rw [if_neg (by simp), hhttp.unconditional]; rfl)
    | true =>
      rw [if_pos rfl]
      rcases hhttp.conditional p (httpDate (m.mtime c)) with hok | ⟨hnot, hdate⟩
      · exact .inl (by rw [hok]; rfl)
      · exact .inr ⟨by rw [hnot]; rfl, rfl, hdate⟩

theorem Traces.serve (hm : m.Traces) (c : Text) (served : Option PublishedFile)
    (hanswers : served ≠ none → ∀ a ∈ m.answers, a.1 ≠ c)
    (hcopies : ∀ p, served = some p → ∀ file, m.cache.capnp c = some file →
      httpDate (m.mtime c) < httpDate p.mtime) :
    Traces { m with served := Function.update m.served c served } := by
  constructor
  · intro c' body write hmem
    refine ⟨(hm.answers c' body write hmem).1, ?_⟩
    intro p hp
    rcases update_eq_some hp with ⟨rfl, hserved⟩ | ⟨-, hp⟩
    · exact absurd rfl (hanswers (by simp [hserved]) _ hmem)
    · exact (hm.answers c' body write hmem).2 p hp
  · intro c' file p hcopy hp
    rcases update_eq_some hp with ⟨rfl, hserved⟩ | ⟨-, hp⟩
    · exact .inr (hcopies p hserved file hcopy)
    · exact hm.copies c' file p hcopy hp

theorem Traces.ask (hhttp : FollowsHttp server) (hm : m.Traces) (c : Text) {todo : List Text} :
    Traces { m with
      todo := todo
      answers := m.answers ++ [(c, (server (m.served c) (m.since c)).response .written)] } := by
  refine ⟨?_, hm.copies⟩
  intro c' body write hmem
  rcases List.mem_append.mp hmem with hmem | hnew
  · exact hm.answers c' body write hmem
  · rw [List.mem_singleton, Prod.mk.injEq] at hnew
    obtain ⟨rfl, hresponse⟩ := hnew
    rcases response_cases hhttp m c' .written with ⟨-, hnone⟩ | ⟨p, hp, hbody | ⟨hnot, -⟩⟩
    · rw [hnone] at hresponse
      cases hresponse
    · rw [hbody, Response.ok.injEq, Option.some.injEq, Prod.mk.injEq] at hresponse
      refine ⟨hresponse.2, ?_⟩
      intro p' hp'
      rw [hresponse.1]
      exact congrArg PublishedFile.file (Option.some.inj (hp'.symm.trans hp))
    · rw [hnot] at hresponse
      cases hresponse

/-- Only a body that has been sent is stored, and it is written to the end. -/
theorem Traces.stored (hm : m.Traces) {c : Text} {response : Response} {file : CapnpFile}
    (hmem : (c, response) ∈ m.answers) (hfile : response.stored = some file) :
    ∀ p, m.served c = some p → p.file = file := by
  unfold Response.stored at hfile
  split at hfile
  · rename_i body
    have hcut := (hm.answers c body .cut hmem).1
    cases hcut
  · rename_i body
    rw [← Option.some.inj hfile]
    exact (hm.answers c body .written hmem).2
  · cases hfile

theorem Traces.receive (hm : m.Traces) {c : Text} {response : Response} {i : ℕ} (clock : ℤ)
    (hi : m.answers[i]? = some (c, response)) :
    Traces { m with
      cache := (fetchCapnpCached m.cache c response).1
      mtime := if response.stored.isSome then Function.update m.mtime c clock else m.mtime
      answers := m.answers.eraseIdx i } := by
  refine ⟨fun c' body write hmem => hm.answers c' body write (List.mem_of_mem_eraseIdx hmem), ?_⟩
  intro c' file p hcopy hserved
  simp only [capnp_fetchCapnpCached] at hcopy ⊢
  cases hstored : response.stored with
  | none =>
    have hold : m.cache.capnp c' = some file := by simpa [hstored] using hcopy
    simpa [hstored] using hm.copies c' file p hold hserved
  | some body =>
    by_cases hc : c = c'
    · subst hc
      have hfile : body = file := by simpa [hstored] using hcopy
      exact .inl (hfile ▸ hm.stored (List.mem_of_getElem? hi) hstored p hserved)
    · have hold : m.cache.capnp c' = some file := by simpa [hc] using hcopy
      simpa [hstored, Function.update_of_ne (Ne.symm hc)] using hm.copies c' file p hold hserved

theorem Traces.step (hhttp : FollowsHttp server) (hm : m.Traces) (hok : m.inTime e = true)
    (h : m.step server e = some m') : m'.Traces := by
  cases e with
  | publishes c p =>
    obtain rfl := Option.some.inj h
    simp only [inTime, Bool.and_eq_true, Bool.or_eq_true, List.all_eq_true, bne_iff_ne,
      decide_eq_true_eq] at hok
    refine hm.serve c (some p) (fun _ => hok.1) ?_
    intro p' hp' file hcopy
    rw [← Option.some.inj hp']
    exact hok.2.resolve_left (by simp [hcopy])
  | removes c =>
    obtain rfl := Option.some.inj h
    exact hm.serve c none (fun hne => absurd rfl hne) (by simp)
  | prefetches commitIds =>
    obtain ⟨-, rfl⟩ := guard_eq_some h
    exact ⟨hm.answers, hm.copies⟩
  | asks c write =>
    obtain ⟨-, rfl⟩ := guard_eq_some h
    cases write with
    | none =>
      refine ⟨?_, hm.copies⟩
      intro c' body write hmem
      rcases List.mem_append.mp hmem with hmem | hnew
      · exact hm.answers c' body write hmem
      · simp at hnew
    | some write =>
      obtain rfl : write = .written := by simpa [inTime] using hok
      exact hm.ask hhttp c
  | receives i clock =>
    rw [Mirror.step] at h
    cases hi : m.answers[i]? with
    | none => simp [hi] at h
    | some a =>
      simp only [hi, Option.some.injEq] at h
      subst h
      exact hm.receive clock hi

/-- The copy of a commit is the server's file, or will be. -/
structure Pending (c : Text) (p : PublishedFile) (m : Mirror) : Prop where
  served : m.served c = some p
  comes : c ∈ m.todo ∨ (c, .ok (some (p.file, .written))) ∈ m.answers ∨ m.cache.capnp c = some p.file

theorem Pending.step {c : Text} {p : PublishedFile} (hhttp : FollowsHttp server) (hm : m.Traces)
    (hp : m.Pending c p) (hok : m.inTime e = true) (hkeeps : e.keeps c = true)
    (h : m.step server e = some m') : m'.Pending c p := by
  cases e with
  | publishes c' p' =>
    obtain rfl := Option.some.inj h
    have hc : c ≠ c' := Ne.symm (by simpa [MirrorEvent.keeps] using hkeeps)
    exact ⟨(Function.update_of_ne hc _ _).trans hp.served, hp.comes⟩
  | removes c' =>
    obtain rfl := Option.some.inj h
    have hc : c ≠ c' := Ne.symm (by simpa [MirrorEvent.keeps] using hkeeps)
    exact ⟨(Function.update_of_ne hc _ _).trans hp.served, hp.comes⟩
  | prefetches commitIds =>
    obtain ⟨hidle, rfl⟩ := guard_eq_some h
    rw [Bool.and_eq_true, List.isEmpty_iff, List.isEmpty_iff] at hidle
    refine ⟨hp.served, .inr (.inr ?_)⟩
    simpa [hidle.1, hidle.2] using hp.comes
  | asks c' write =>
    obtain ⟨-, rfl⟩ := guard_eq_some h
    refine ⟨hp.served, ?_⟩
    by_cases hc : c = c'
    · subst hc
      cases write with
      | none => simp [MirrorEvent.keeps] at hkeeps
      | some write =>
        obtain rfl : write = .written := by simpa [inTime] using hok
        rcases response_cases hhttp m c .written with ⟨hnone, -⟩ | ⟨p', hp', hbody | ⟨-, hcopy, hdate⟩⟩
        · rw [hp.served] at hnone
          cases hnone
        · obtain rfl := Option.some.inj (hp.served.symm.trans hp')
          exact .inr (.inl (List.mem_append_right _ (by simp [hbody])))
        -- the copy is not older than the file, so it is the same
        · obtain ⟨file, hfile⟩ := Option.isSome_iff_exists.mp hcopy
          obtain rfl := Option.some.inj (hp.served.symm.trans hp')
          rcases hm.copies c file p hfile hp.served with hsame | hlt
          · exact .inr (.inr (hsame ▸ hfile))
          · omega
    · rcases hp.comes with htodo | hanswer | hcopy
      · exact .inl ((List.mem_erase_of_ne hc).mpr htodo)
      · exact .inr (.inl (List.mem_append_left _ hanswer))
      · exact .inr (.inr hcopy)
  | receives i clock =>
    rw [Mirror.step] at h
    cases hi : m.answers[i]? with
    | none => simp [hi] at h
    | some a =>
      obtain ⟨c', response⟩ := a
      simp only [hi, Option.some.injEq] at h
      subst h
      refine ⟨hp.served, ?_⟩
      rcases hp.comes with htodo | hanswer | hcopy
      · exact .inl htodo
      · obtain ⟨j, hj⟩ := List.mem_iff_getElem?.mp hanswer
        by_cases hij : j = i
        · rw [hij, hi, Option.some.injEq, Prod.mk.injEq] at hj
          obtain ⟨rfl, rfl⟩ := hj
          exact .inr (.inr (by simp [capnp_fetchCapnpCached, Response.stored]))
        · exact .inr (.inl (List.mem_eraseIdx_iff_getElem?.mpr ⟨j, hij, hj⟩))
      · refine .inr (.inr ?_)
        simp only [capnp_fetchCapnpCached]
        split_ifs with hc
        · subst hc
          cases hstored : response.stored with
          | none => simpa using hcopy
          | some body =>
            rw [← hm.stored (List.mem_of_getElem? hi) hstored p hp.served]
            rfl
        · exact hcopy

/-- The copy of a commit that is not asked for. -/
structure Kept (c : Text) (file : CapnpFile) (m : Mirror) : Prop where
  copy : m.cache.capnp c = some file
  todo : c ∉ m.todo
  answers : ∀ response, (c, response) ∉ m.answers

theorem Kept.step {c : Text} {file : CapnpFile} (hkept : m.Kept c file) (hcall : e.isCall = false)
    (h : m.step server e = some m') : m'.Kept c file := by
  cases e with
  | publishes c' p' =>
    obtain rfl := Option.some.inj h
    exact ⟨hkept.copy, hkept.todo, hkept.answers⟩
  | removes c' =>
    obtain rfl := Option.some.inj h
    exact ⟨hkept.copy, hkept.todo, hkept.answers⟩
  | prefetches commitIds => cases hcall
  | asks c' write =>
    obtain ⟨hasked, rfl⟩ := guard_eq_some h
    refine ⟨hkept.copy, fun hmem => hkept.todo (List.mem_of_mem_erase hmem), ?_⟩
    intro response hmem
    rcases List.mem_append.mp hmem with hmem | hnew
    · exact hkept.answers response hmem
    · rw [List.mem_singleton, Prod.mk.injEq] at hnew
      exact hkept.todo (hnew.1 ▸ List.contains_iff_mem.mp hasked)
  | receives i clock =>
    rw [Mirror.step] at h
    cases hi : m.answers[i]? with
    | none => simp [hi] at h
    | some a =>
      obtain ⟨c', response⟩ := a
      simp only [hi, Option.some.injEq] at h
      subst h
      have hc : c' ≠ c := by
        rintro rfl
        exact hkept.answers response (List.mem_of_getElem? hi)
      refine ⟨?_, hkept.todo, fun r hmem => hkept.answers r (List.mem_of_mem_eraseIdx hmem)⟩
      simpa only [capnp_fetchCapnpCached, if_neg hc] using hkept.copy

/-- Everything that is or comes into the cache is known. -/
structure Known (known : Text → CapnpFile → Prop) (m : Mirror) : Prop where
  served : ∀ c p, m.served c = some p → known c p.file
  answers : ∀ c response, (c, response) ∈ m.answers → ∀ file, response.stored = some file → known c file
  copies : ∀ c file, m.cache.capnp c = some file → known c file

theorem Known.step {known : Text → CapnpFile → Prop} (hhttp : FollowsHttp server) (hm : m.Known known)
    (hknown : ∀ c p, e = .publishes c p → known c p.file) (hok : m.inTime e = true)
    (h : m.step server e = some m') : m'.Known known := by
  cases e with
  | publishes c p =>
    obtain rfl := Option.some.inj h
    refine ⟨?_, hm.answers, hm.copies⟩
    intro c' p' hp
    rcases update_eq_some hp with ⟨rfl, hserved⟩ | ⟨-, hp⟩
    · exact Option.some.inj hserved ▸ hknown c' p rfl
    · exact hm.served c' p' hp
  | removes c =>
    obtain rfl := Option.some.inj h
    refine ⟨?_, hm.answers, hm.copies⟩
    intro c' p' hp
    rcases update_eq_some hp with ⟨-, hserved⟩ | ⟨-, hp⟩
    · cases hserved
    · exact hm.served c' p' hp
  | prefetches commitIds =>
    obtain ⟨-, rfl⟩ := guard_eq_some h
    exact ⟨hm.served, hm.answers, hm.copies⟩
  | asks c write =>
    obtain ⟨-, rfl⟩ := guard_eq_some h
    refine ⟨hm.served, ?_, hm.copies⟩
    intro c' response hmem file hfile
    rcases List.mem_append.mp hmem with hmem | hnew
    · exact hm.answers c' response hmem file hfile
    · rw [List.mem_singleton, Prod.mk.injEq] at hnew
      obtain ⟨rfl, rfl⟩ := hnew
      cases write with
      | none => cases hfile
      | some write =>
        obtain rfl : write = .written := by simpa [inTime] using hok
        simp only at hfile
        rcases response_cases hhttp m c' .written with ⟨-, hnone⟩ | ⟨p, hp, hbody | ⟨hnot, -⟩⟩
        · rw [hnone] at hfile
          cases hfile
        · rw [hbody] at hfile
          exact Option.some.inj hfile ▸ hm.served c' p hp
        · rw [hnot] at hfile
          cases hfile
  | receives i clock =>
    rw [Mirror.step] at h
    cases hi : m.answers[i]? with
    | none => simp [hi] at h
    | some a =>
      obtain ⟨c, response⟩ := a
      simp only [hi, Option.some.injEq] at h
      subst h
      refine ⟨hm.served, fun c' r hmem => hm.answers c' r (List.mem_of_mem_eraseIdx hmem), ?_⟩
      intro c' file hcopy
      simp only [capnp_fetchCapnpCached] at hcopy
      split_ifs at hcopy with hc
      · subst hc
        cases hstored : response.stored with
        | none =>
          rw [hstored, Option.none_or] at hcopy
          exact hm.copies c file hcopy
        | some body =>
          rw [hstored, Option.some_or] at hcopy
          exact hm.answers c response (List.mem_of_getElem? hi) file (hstored.trans hcopy)
      · exact hm.copies c' file hcopy

theorem mem_toFetch_iff {o : OutputDir} {commitIds : List Text} {c : Text} :
    c ∈ toFetch o commitIds ↔ c ∈ commitIds.take 5 ∨ c ∈ commitIds ∧ o.capnp c = none := by
  have hcached : o.files.contains (capnpName c) = (o.capnp c).isSome := by
    rw [OutputDir.capnp, Std.ExtTreeMap.contains_eq_isSome_getElem?]
  constructor
  · intro h
    obtain ⟨⟨c', i⟩, hmem, hc⟩ := List.mem_filterMap.mp h
    rw [List.mem_zipIdx_iff_getElem?] at hmem
    simp only at hc hmem
    split_ifs at hc with hi hfile
    · obtain rfl := Option.some.inj hc
      exact .inl (List.mem_iff_getElem?.mpr ⟨i, by rwa [List.getElem?_take_of_lt hi]⟩)
    · obtain rfl := Option.some.inj hc
      rw [hcached] at hfile
      exact .inr ⟨List.mem_of_getElem? hmem, by simpa using hfile⟩
  · rintro (htake | ⟨hmem, hnone⟩)
    · obtain ⟨i, hi⟩ := List.mem_iff_getElem?.mp htake
      have hlt : i < 5 := by
        have hlen := (List.getElem?_eq_some_iff.mp hi).1
        rw [List.length_take] at hlen
        omega
      rw [List.getElem?_take_of_lt hlt] at hi
      exact List.mem_filterMap.mpr ⟨(c, i), List.mem_zipIdx_iff_getElem?.mpr hi, by simp [hlt]⟩
    · obtain ⟨i, hi⟩ := List.mem_iff_getElem?.mp hmem
      exact List.mem_filterMap.mpr ⟨(c, i), List.mem_zipIdx_iff_getElem?.mpr hi, by
        simp [hcached, hnone]⟩

end Mirror

section Client

open Mirror

variable {server : Option PublishedFile → Option ℤ → HttpAnswer} {s t u : Mirror}
variable {es es' : List MirrorEvent} {commitIds : List Text}

theorem Mirror.Traces.run (hhttp : FollowsHttp server) (hs : s.Traces)
    (hok : along inTime (Mirror.step server) s es = true) (hrun : EventRuns.run (Mirror.step server) s es = some t) : t.Traces :=
  run_invariant_along (fun _ _ _ hok hm h => hm.step hhttp hok h) hok hs hrun

/-- A commit whose file the server keeps during a call, and that is asked for. -/
theorem Mirror.Pending.run {c : Text} {p : PublishedFile} (hhttp : FollowsHttp server) (hs : s.Traces)
    (hp : s.Pending c p) (hkeeps : ∀ e ∈ es, e.keeps c = true)
    (hok : along inTime (Mirror.step server) s es = true) (hrun : EventRuns.run (Mirror.step server) s es = some t) :
    t.Pending c p := by
  have hstep : ∀ m e m', e.keeps c = true → m.inTime e = true → m.Traces ∧ m.Pending c p →
      Mirror.step server m e = some m' → m'.Traces ∧ m'.Pending c p :=
    fun _ _ _ hkeeps hok hm h => ⟨hm.1.step hhttp hok h, hm.2.step hhttp hm.1 hok hkeeps h⟩
  exact (run_invariant_allowed_along hstep hkeeps hok ⟨hs, hp⟩ hrun).2

theorem Mirror.Kept.run {c : Text} {file : CapnpFile} (hs : s.Kept c file)
    (hcalls : ∀ e ∈ es, e.isCall = false) (hrun : EventRuns.run (Mirror.step server) s es = some t) : t.Kept c file :=
  run_invariant (fun _ _ _ hcall hm h => hm.step hcall h) hcalls hs hrun

theorem Mirror.Known.run {known : Text → CapnpFile → Prop} (hhttp : FollowsHttp server)
    (hs : s.Known known) (hknown : ∀ e ∈ es, ∀ c p, e = .publishes c p → known c p.file)
    (hok : along inTime (Mirror.step server) s es = true)
    (hrun : EventRuns.run (Mirror.step server) s es = some t) : t.Known known := by
  have hstep : ∀ m e m', (∀ c p, e = .publishes c p → known c p.file) → m.inTime e = true →
      m.Known known → Mirror.step server m e = some m' → m'.Known known :=
    fun _ _ _ hknown hok hm h => hm.step hhttp hknown hok h
  exact run_invariant_allowed_along hstep hknown hok hs hrun

/-- A cache that starts empty, and is filled while the server publishes in time, holds files of the
server only. A call of `prefetch_capnp` brings the copies of the first five commits up to date, and
gets the others that are missing; a copy that is there of any other commit stays as it is, however
old it is. -/
theorem mirror_fresh (hhttp : FollowsHttp server) (hcache : ∀ c, s.cache.capnp c = none)
    (hanswers : s.answers = []) (hrun : run (step server) s es = some t)
    (hcall : run (step server) t (.prefetches commitIds :: es') = some u)
    (hok : along inTime (step server) s (es ++ .prefetches commitIds :: es') = true)
    (hone : ∀ e ∈ es', e.isCall = false) (hreturned : u.todo = [] ∧ u.answers = []) :
    (∀ c p, c ∈ commitIds.take 5 ∨ c ∈ commitIds ∧ t.cache.capnp c = none → t.served c = some p →
        (∀ e ∈ es', e.keeps c = true) → u.served c = some p ∧ u.cache.capnp c = some p.file) ∧
      (∀ c file, c ∉ commitIds.take 5 → t.cache.capnp c = some file → u.cache.capnp c = some file) ∧
      ∀ c file, u.cache.capnp c = some file → ∃ p : PublishedFile, p.file = file ∧
        (s.served c = some p ∨ .publishes c p ∈ es ++ es') := by
  have hs : s.Traces := ⟨by simp [hanswers], by simp [hcache]⟩
  have hwhole : run (step server) s (es ++ .prefetches commitIds :: es') = some u := by
    rw [run_append, hrun]
    exact hcall
  have hokWhole := hok
  rw [along_append hrun, Bool.and_eq_true] at hok
  have ht := hs.run hhttp hok.1 hrun
  obtain ⟨t', hbegin, hrest⟩ := run_cons_eq_some_iff.mp hcall
  have ht' := ht.step hhttp rfl hbegin
  have hokRest := hok.2
  rw [along_cons hbegin, Bool.and_eq_true] at hokRest
  obtain ⟨hidle, rfl⟩ := guard_eq_some hbegin
  refine ⟨?_, ?_, ?_⟩
  · intro c p hasked hserved hkeeps
    have hpending : Mirror.Pending c p { t with todo := toFetch t.cache commitIds } :=
      ⟨hserved, .inl (mem_toFetch_iff.mpr hasked)⟩
    have hdone := hpending.run hhttp ht' hkeeps hokRest.2 hrest
    exact ⟨hdone.served, by simpa [hreturned.1, hreturned.2] using hdone.comes⟩
  · intro c file hlate hcopy
    have hkept : Mirror.Kept c file { t with todo := toFetch t.cache commitIds } := by
      refine ⟨hcopy, ?_, ?_⟩
      · rw [mem_toFetch_iff]
        simp [hlate, hcopy]
      · rw [Bool.and_eq_true, List.isEmpty_iff, List.isEmpty_iff] at hidle
        simp [hidle.2]
    exact (hkept.run hone hrest).copy
  · intro c file hcopy
    have hknown : Known (fun c file => ∃ p : PublishedFile, p.file = file ∧
        (s.served c = some p ∨ .publishes c p ∈ es ++ es')) s :=
      ⟨fun c p hp => ⟨p, rfl, .inl hp⟩, by simp [hanswers], by simp [hcache]⟩
    refine (hknown.run hhttp ?_ hokWhole hwhole).copies c file hcopy
    rintro e he c p rfl
    refine ⟨p, rfl, .inr ?_⟩
    simpa using he

def plainServer : Option PublishedFile → Option ℤ → HttpAnswer
  | none, _ => .notFound
  | some p, none => .ok p.file
  | some p, some since => if httpDate p.mtime ≤ since then .notModified else .ok p.file

theorem plainServer_followsHttp : FollowsHttp plainServer where
  notFound _ := rfl
  unconditional _ := rfl
  conditional p since := by
    rw [plainServer]
    split_ifs with hdate
    · exact .inr ⟨rfl, hdate⟩
    · exact .inl rfl

def emptyMirror : Mirror := ⟨fun _ => none, ⟨∅, ∅⟩, fun _ => 0, [], []⟩

def publishedAt (mtime : ℤ) (results : TestResultsMap) : PublishedFile :=
  ⟨.message (resultsMessage "c0ffee".toList none results), mtime⟩

/-- Fetch, publish more, fetch again. -/
theorem mirror_fresh_again : ∃ u p,
    run (step plainServer) emptyMirror
      ([.publishes "c0ffee".toList (publishedAt 0 ∅), .prefetches ["c0ffee".toList],
        .asks "c0ffee".toList (some .written), .receives 0 1500000000,
        .publishes "c0ffee".toList p] ++
      .prefetches ["c0ffee".toList] :: [.asks "c0ffee".toList (some .written), .receives 0 3000000000]) =
        some u ∧
      u.cache.capnp "c0ffee".toList = some p.file := by
  let p := publishedAt 2000000000 ((∅ : TestResultsMap).insert "fs.mount".toList ⟨.passed, 0, 5⟩)
  refine ⟨_, p, rfl, ?_⟩
  have hfresh := @mirror_fresh plainServer emptyMirror _ _
    [.publishes "c0ffee".toList (publishedAt 0 ∅), .prefetches ["c0ffee".toList],
      .asks "c0ffee".toList (some .written), .receives 0 1500000000, .publishes "c0ffee".toList p]
    [.asks "c0ffee".toList (some .written), .receives 0 3000000000] ["c0ffee".toList]
    plainServer_followsHttp (fun c => by simp [emptyMirror, OutputDir.capnp]) rfl rfl rfl
    (by decide +kernel) (by decide) ⟨rfl, rfl⟩
  exact (hfresh.1 _ p (.inl (by simp)) rfl (by decide)).2

end Client

end KtestCi
