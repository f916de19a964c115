import KtestCi.EventRuns
import KtestCi.ResultsStore

/-!
# `rm-results` beside the daemon

`rm-results` removes result directories one after the other, and then rewrites the capnp of
every affected commit from what is left on disk. It runs as a process of its own on the
daemon's output directory, so between any two of its steps the daemon may update its store
and running batches may write result directories. Lookups and `desired_jobs` only read.
-/

namespace KtestCi
namespace RmResults

/-- Where the process is. The paths found are `(commit, entry)` pairs; a commit is read
entry by entry before its file is written. -/
inductive Stage where
  | removing (todo : List (Text × Text)) (affected : List Text)
  | updating (todo : List Text)
  | reading (commit : Text) (names : List Text) (results : TestResultsMap) (todo : List Text)

/-- The daemon's store with the output directory, and the process. -/
structure Shared where
  store : TestResultsStore
  rm : Stage

inductive Event where
  /-- The daemon updates its store. -/
  | update (io : CapnpWrite) (commit : Text) (updates : TestResultsMap)
  /-- A running batch writes files of a result directory. -/
  | batchWrite (commit key : Text) (dir : ResultDir)
  /-- The next path is removed, up to what could not be. -/
  | rmRemove (remains : Option ResultDir)
  /-- All paths are done; the commits are taken in the order of the hash set. -/
  | rmUpdate (order : List Text)
  /-- The entries of the next commit are listed. -/
  | rmList
  /-- The next entry is read. -/
  | rmRead
  /-- The commit's capnp is written. -/
  | rmWrite (io : CapnpWrite)

def Event.Touches (c k : Text) : Event → Prop
  | update _ commit updates => commit = c ∧ k ∈ updates
  | batchWrite commit key _ => commit = c ∧ key = k
  | _ => False

/-- `remove_path` of an entry of a commit's directory, up to its remains. -/
def removePath (o : OutputDir) (commit name : Text) (remains : Option ResultDir) : OutputDir :=
  let remove (dirs : TextMap ResultDir) := dirs.alter name (fun d => d.bind (fun _ => remains))
  { o with commits := o.commits.modify commit remove }

def addResult (testdir : Option ResultDir) (name : Text) (results : TestResultsMap) : TestResultsMap :=
  match testdir.bind readTestResult with
  | none => results
  | some r => results.insert name r

def step (sys : Shared) : Event → Option Shared
  | .update io commit updates => some { sys with store := sys.store.update io commit updates }
  | .batchWrite commit key dir =>
    let o := sys.store.outputDir.setResultDir commit key dir
    some { sys with store := { sys.store with outputDir := o } }
  | .rmRemove remains => match sys.rm with
    | .removing ((commit, name) :: todo) affected =>
      let o := removePath sys.store.outputDir commit name remains
      some ⟨{ sys.store with outputDir := o }, .removing todo (affected.insert commit)⟩
    | _ => none
  | .rmUpdate order => match sys.rm with
    | .removing [] affected =>
      if order.isPerm affected then some { sys with rm := .updating order } else none
    | _ => none
  | .rmList => match sys.rm with
    | .updating (commit :: todo) =>
      let names := (sys.store.outputDir.commits[commit]?.getD ∅).keys
      some { sys with rm := .reading commit names ∅ todo }
    | _ => none
  | .rmRead => match sys.rm with
    | .reading commit (name :: names) results todo =>
      let testdir := sys.store.outputDir.resultDir commit name
      some { sys with rm := .reading commit names (addResult testdir name results) todo }
    | _ => none
  | .rmWrite io => match sys.rm with
    | .reading commit [] results todo =>
      let o := sys.store.outputDir.resultsToCapnp io commit none results
      some ⟨{ sys.store with outputDir := o }, .updating todo⟩
    | _ => none

inductive Moves (sys : Shared) : Event → Shared → Prop
  | update (io : CapnpWrite) (commit : Text) (updates : TestResultsMap) :
      Moves sys (.update io commit updates) { sys with store := sys.store.update io commit updates }
  | batchWrite (commit key : Text) (dir : ResultDir) :
      Moves sys (.batchWrite commit key dir) { sys with
        store := { sys.store with outputDir := sys.store.outputDir.setResultDir commit key dir } }
  | rmRemove {commit name : Text} {todo : List (Text × Text)} {affected : List Text}
      (remains : Option ResultDir) (h : sys.rm = .removing ((commit, name) :: todo) affected) :
      Moves sys (.rmRemove remains)
        ⟨{ sys.store with outputDir := removePath sys.store.outputDir commit name remains },
          .removing todo (affected.insert commit)⟩
  | rmUpdate {affected : List Text} (order : List Text) (h : sys.rm = .removing [] affected)
      (hperm : order.isPerm affected = true) :
      Moves sys (.rmUpdate order) { sys with rm := .updating order }
  | rmList {commit : Text} {todo : List Text} (h : sys.rm = .updating (commit :: todo)) :
      Moves sys .rmList { sys with
        rm := .reading commit (sys.store.outputDir.commits[commit]?.getD ∅).keys ∅ todo }
  | rmRead {commit name : Text} {names todo : List Text} {results : TestResultsMap}
      (h : sys.rm = .reading commit (name :: names) results todo) :
      Moves sys .rmRead { sys with
        rm := .reading commit names
          (addResult (sys.store.outputDir.resultDir commit name) name results) todo }
  | rmWrite {commit : Text} {todo : List Text} {results : TestResultsMap} (io : CapnpWrite)
      (h : sys.rm = .reading commit [] results todo) :
      Moves sys (.rmWrite io)
        ⟨{ sys.store with outputDir := sys.store.outputDir.resultsToCapnp io commit none results },
          .updating todo⟩

theorem moves_of_step {sys sys' : Shared} {e : Event} (hstep : step sys e = some sys') :
    Moves sys e sys' := by
  cases e with
  | update io commit updates =>
    obtain rfl := Option.some.inj hstep
    exact .update io commit updates
  | batchWrite commit key dir =>
    obtain rfl := Option.some.inj hstep
    exact .batchWrite commit key dir
  | rmRemove remains =>
    simp only [step] at hstep
    split at hstep
    next hrm =>
      obtain rfl := Option.some.inj hstep
      exact .rmRemove remains hrm
    next => simp at hstep
  | rmUpdate order =>
    simp only [step] at hstep
    split at hstep
    next hrm =>
      split_ifs at hstep with hperm
      obtain rfl := Option.some.inj hstep
      exact .rmUpdate order hrm hperm
    next => simp at hstep
  | rmList =>
    simp only [step] at hstep
    split at hstep
    next hrm =>
      obtain rfl := Option.some.inj hstep
      exact .rmList hrm
    next => simp at hstep
  | rmRead =>
    simp only [step] at hstep
    split at hstep
    next hrm =>
      obtain rfl := Option.some.inj hstep
      exact .rmRead hrm
    next => simp at hstep
  | rmWrite io =>
    simp only [step] at hstep
    split at hstep
    next hrm =>
      obtain rfl := Option.some.inj hstep
      exact .rmWrite io hrm
    next => simp at hstep

end RmResults
end KtestCi
