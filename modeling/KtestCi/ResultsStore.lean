import KtestCi.ResultsDir

/-!
# The results store

The daemon's map of results per commit, over the output directory that it publishes them
to. Every update and delete holds the store's lock from the merge to the end of the write,
so calls from any number of threads are a sequence of calls. A write that fails leaves the
map as merged.
-/

namespace KtestCi

/-- The store: the directory behind `output_dir`, and the results in memory. -/
structure TestResultsStore where
  outputDir : OutputDir
  byCommit : TextMap TestResultsMap

namespace TestResultsStore

def lookup (s : TestResultsStore) (commit key : Text) : Option TestStatus :=
  (s.byCommit[commit]?.bind (fun m => m[key]?)).map TestResult.status

def commitResults (s : TestResultsStore) (commit : Text) : Option TestResultsMap :=
  s.byCommit[commit]?

def results (s : TestResultsStore) (commit : Text) : TestResultsMap := (s.commitResults commit).getD ∅

/-- The end of `update` and `delete`: the commit's new map and its file. -/
def replace (s : TestResultsStore) (io : CapnpWrite) (commit : Text) (m : TestResultsMap) :
    TestResultsStore :=
  ⟨s.outputDir.resultsToCapnp io commit none m, s.byCommit.insert commit m⟩

/-- The updates are inserted over the commit's entries. -/
def update (s : TestResultsStore) (io : CapnpWrite) (commit : Text) (updates : TestResultsMap) :
    TestResultsStore :=
  if updates.isEmpty then s
  else s.replace io commit (s.byCommit[commit]?.getD ∅ ∪ updates)

def updateOne (s : TestResultsStore) (io : CapnpWrite) (commit key : Text) (result : TestResult) :
    TestResultsStore :=
  s.update io commit ((∅ : TestResultsMap).insert key result)

/-- Only a delete that removes something rewrites the file. -/
def delete (s : TestResultsStore) (io : CapnpWrite) (commit : Text) (keys : List Text) :
    TestResultsStore :=
  if keys.isEmpty then s
  else match s.byCommit[commit]? with
    | none => s
    | some entry =>
      if keys.any (fun k => entry.contains k) then
        s.replace io commit (TextMap.eraseKeys entry keys)
      else s

end TestResultsStore

inductive StoreCall where
  | update (commit : Text) (updates : TestResultsMap)
  | updateOne (commit key : Text) (result : TestResult)
  | delete (commit : Text) (keys : List Text)

namespace StoreCall

def commit : StoreCall → Text
  | update commit _ | updateOne commit _ _ | delete commit _ => commit

/-- The keys that the call may add. -/
def Adds (call : StoreCall) (k : Text) : Prop :=
  match call with
  | update _ updates => k ∈ updates
  | updateOne _ key _ => k = key
  | delete _ _ => False

def rewrites (s : TestResultsStore) : StoreCall → Bool
  | update _ updates => !updates.isEmpty
  | updateOne _ _ _ => true
  | delete commit keys => keys.any (fun k => (s.lookup commit k).isSome)

end StoreCall

namespace TestResultsStore

def apply (s : TestResultsStore) (io : CapnpWrite) : StoreCall → TestResultsStore
  | .update commit updates => s.update io commit updates
  | .updateOne commit key result => s.updateOne io commit key result
  | .delete commit keys => s.delete io commit keys

def run (s : TestResultsStore) : List (CapnpWrite × StoreCall) → TestResultsStore
  | [] => s
  | (io, call) :: calls => (s.apply io call).run calls

def dropStatus (clearFailedToRun : Bool) (s : TestStatus) : Bool :=
  s = .inprogress || (clearFailedToRun && s = .failedToRun)

def staleKeys (clearFailedToRun : Bool) (m : TestResultsMap) : List Text :=
  (m.toList.filter (fun kr => dropStatus clearFailedToRun kr.2.status)).map Prod.fst

/-- A full object id in hexadecimal. -/
def isCommitId (name : Text) : Bool :=
  name.length = 40 && name.all (fun c => c.isDigit || ('a' ≤ c && c ≤ 'f') || ('A' ≤ c && c ≤ 'F'))

/-- The file operations of one `load`. -/
structure LoadIo where
  write : Text → CapnpWrite
  remove : RemoveEffect

/-- One entry of the output directory; a panic is `none`. -/
def loadCommit (io : LoadIo) (clearFailedToRun : Bool) (s : TestResultsStore) (commitId : Text) :
    Option TestResultsStore :=
  if isCommitId commitId && s.outputDir.commits.contains commitId then
    match (s.outputDir.capnp commitId).map parseTestResults with
    | none | some .error => some s
    | some .panicked => none
    | some (.ok c) =>
      let stale := staleKeys clearFailedToRun c.tests
      let m := TextMap.eraseKeys c.tests stale
      let o := if stale.isEmpty then s.outputDir
        else (stale.foldl (fun o k => o.removeDirAll io.remove commitId k) s.outputDir).resultsToCapnp
          (io.write commitId) commitId none m
      some ⟨o, if m.isEmpty then s.byCommit else s.byCommit.insert commitId m⟩
  else some s

def load (io : LoadIo) (outputDir : OutputDir) (clearFailedToRun : Bool) : Option TestResultsStore :=
  outputDir.commits.keys.foldlM (loadCommit io clearFailedToRun) ⟨outputDir, ∅⟩

end TestResultsStore
end KtestCi
