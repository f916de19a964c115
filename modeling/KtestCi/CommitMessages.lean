import KtestCi.EventRuns
import KtestCi.ResultsStoreRestart

/-!
# Commit messages in the results files

The file of a commit holds its results and, once a migration or a generator has put it
there, the commit's message. Everything that changes results rewrites the whole file without
a message. Over any sequence of such operations the message lives exactly as long as no
rewrite of its file succeeds.
-/

namespace KtestCi

namespace OutputDir

end OutputDir

/-- The operations that change results: a restart of the store, a call on the store, and
reading the result directories of a commit again. -/
inductive ResultsEvent where
  | load (io : TestResultsStore.LoadIo) (clearFailedToRun : Bool)
  | call (io : CapnpWrite) (storeCall : StoreCall)
  | updateResults (io : CapnpWrite) (commit : Text)

namespace ResultsEvent

open TestResultsStore

/-- A panic of `load` ends the run. -/
def step (s : TestResultsStore) : ResultsEvent → Option TestResultsStore
  | load io clear => TestResultsStore.load io s.outputDir clear
  | call io storeCall => some (s.apply io storeCall)
  | updateResults io commit =>
    some { s with outputDir := s.outputDir.commitUpdateResults io commit }

def rewrites (c : Text) (s : TestResultsStore) : ResultsEvent → Bool
  | load io clear => loadable s.outputDir c &&
      !(staleKeys clear (s.outputDir.decoded c)).isEmpty && (io.write c).outcome = .written
  | call io storeCall => storeCall.commit = c && storeCall.rewrites s && io.outcome = .written
  | updateResults io commit => commit = c && io.outcome = .written

end ResultsEvent

namespace TestResultsStore

end TestResultsStore

namespace ResultsEvent

open TestResultsStore

variable {c : Text} {s s' : TestResultsStore} {e : ResultsEvent}

end ResultsEvent
end KtestCi
