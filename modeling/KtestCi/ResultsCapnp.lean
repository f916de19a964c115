import KtestCi.TestResults

/-!
# The per-commit results message

The results of a commit are published as one `TestResults` message of `testresult.capnp`.
A message is modelled by the fields its readers can observe; a file that holds no readable
message is one value. Writing sets the name, duration and status of every entry and leaves
the start time at its default.
-/

namespace KtestCi

namespace TestStatus

def ordinal : TestStatus → UInt16
  | inprogress => 0
  | passed => 1
  | failed => 2
  | notrun => 3
  | failedToRun => 4
  | unknown => 5

def ofOrdinal (n : UInt16) : Option TestStatus :=
  if n = 0 then some inprogress else if n = 1 then some passed else if n = 2 then some failed
  else if n = 3 then some notrun else if n = 4 then some failedToRun
  else if n = 5 then some unknown else none

@[simp] theorem ofOrdinal_ordinal (s : TestStatus) : ofOrdinal s.ordinal = some s := by
  cases s <;> decide

end TestStatus

/-- One entry of a message. An unreadable name is `none`; the start time is in seconds. -/
structure ResultEntry where
  name : Option Text
  starttime : Int64
  duration : UInt64
  status : UInt16
  deriving DecidableEq

/-- A `TestResults` message. Unreadable texts are `none`. -/
structure ResultsMessage where
  entries : List ResultEntry
  message : Option Text
  commitId : Option Text
  deriving DecidableEq

/-- The content of a capnp file. -/
inductive CapnpFile where
  | message (m : ResultsMessage)
  | unreadable
  deriving DecidableEq

/-- What a parser does: it returns, reports an error, or panics. -/
inductive Parsed (α : Type) where
  | ok (a : α)
  | error
  | panicked

structure CommitResultsCapnp where
  message : Text
  commitId : Text
  tests : TestResultsMap

/-- The seconds that `DateTime<Utc>` can represent. -/
def validTimestamp (seconds : Int64) : Bool :=
  decide (-8334601228800 ≤ seconds.toInt ∧ seconds.toInt ≤ 8210266876799)

/-- One round of the loop of `parse_test_results`, in the order in which the fields are
read: the status may be refused, the time may panic, the name may be refused. -/
def readEntry (e : ResultEntry) : Parsed (Text × TestResult) :=
  match TestStatus.ofOrdinal e.status with
  | none => .error
  | some status =>
    if validTimestamp e.starttime then
      match e.name with
      | none => .error
      | some name => .ok (name, ⟨status, e.starttime.toInt * 1000000000, e.duration⟩)
    else .panicked

def readEntries : List ResultEntry → TestResultsMap → Parsed TestResultsMap
  | [], results => .ok results
  | e :: es, results => match readEntry e with
    | .ok (name, r) => readEntries es (results.insert name r)
    | .error => .error
    | .panicked => .panicked

def parseTestResults : CapnpFile → Parsed CommitResultsCapnp
  | .unreadable => .error
  | .message m => match readEntries m.entries ∅ with
    | .ok tests => .ok ⟨m.message.getD [], m.commitId.getD [], tests⟩
    | .error => .error
    | .panicked => .panicked

def resultEntry (name : Text) (r : TestResult) : ResultEntry :=
  ⟨some name, 0, r.duration, r.status.ordinal⟩

def resultsMessage (commitId : Text) (commitMessage : Option Text) (results : TestResultsMap) :
    ResultsMessage where
  entries := results.toList.map (fun kr => resultEntry kr.1 kr.2)
  message := some (commitMessage.getD [])
  commitId := some commitId

/-- A result as it is read back: its start time is lost. -/
def TestResult.published (r : TestResult) : TestResult := { r with starttime := 0 }

@[simp] theorem TestResult.status_published (r : TestResult) : r.published.status = r.status := rfl

@[simp] theorem TestResult.duration_published (r : TestResult) : r.published.duration = r.duration :=
  rfl

def TestResultsMap.published (m : TestResultsMap) : TestResultsMap :=
  m.map (fun _ r => r.published)

@[simp] theorem TestResultsMap.getElem?_published (m : TestResultsMap) (k : Text) :
    m.published[k]? = m[k]?.map TestResult.published := by
  simp [TestResultsMap.published]

theorem readEntry_resultEntry (k : Text) (r : TestResult) :
    readEntry (resultEntry k r) = .ok (k, r.published) := by
  have hvalid : validTimestamp 0 = true := by decide
  simp [readEntry, resultEntry, hvalid, TestResult.published]

theorem readEntries_resultEntry (rs : List (Text × TestResult)) (results : TestResultsMap) :
    readEntries (rs.map (fun kr => resultEntry kr.1 kr.2)) results =
      .ok (results.insertMany (rs.map (fun kr => (kr.1, kr.2.published)))) := by
  induction rs generalizing results with
  | nil => simp [readEntries]
  | cons kr rs ih =>
    simp only [List.map_cons, readEntries, readEntry_resultEntry, ih,
      Std.ExtTreeMap.insertMany_cons]

theorem insertMany_published (m : TestResultsMap) :
    (∅ : TestResultsMap).insertMany (m.toList.map (fun kr => (kr.1, kr.2.published))) =
      m.published := by
  have hdistinct : (m.toList.map (fun kr => (kr.1, kr.2.published))).Pairwise
      (fun a b => ¬ compare a.1 b.1 = .eq) :=
    List.pairwise_map.mpr m.distinct_keys_toList
  apply Std.ExtTreeMap.ext_getElem?
  intro k
  rw [← Std.ExtTreeMap.ofList_eq_insertMany_empty, TestResultsMap.getElem?_published]
  cases hk : m[k]? with
  | some r =>
    have hmem : (k, r.published) ∈ m.toList.map (fun kr => (kr.1, kr.2.published)) :=
      List.mem_map.mpr ⟨(k, r), Std.ExtTreeMap.mem_toList_iff_getElem?_eq_some.mpr hk, rfl⟩
    exact Std.ExtTreeMap.getElem?_ofList_of_mem (by simp) hdistinct hmem
  | none =>
    apply Std.ExtTreeMap.getElem?_ofList_of_contains_eq_false
    rw [List.map_map]
    have hnot : k ∉ m := by simpa using hk
    simpa [Function.comp_def, Std.ExtTreeMap.map_fst_toList_eq_keys] using hnot

/-- What is written is read back, apart from the start times. -/
theorem parseTestResults_resultsMessage (c : Text) (cm : Option Text) (m : TestResultsMap) :
    parseTestResults (.message (resultsMessage c cm m)) = .ok ⟨cm.getD [], c, m.published⟩ := by
  simp only [parseTestResults, resultsMessage, readEntries_resultEntry, insertMany_published,
    Option.getD_some]

theorem TestResult.published_eq_self_iff (r : TestResult) : r.published = r ↔ r.starttime = 0 := by
  obtain ⟨status, starttime, duration⟩ := r
  simp [published, eq_comm]

theorem TestResultsMap.published_eq_self_iff (m : TestResultsMap) :
    m.published = m ↔ ∀ (k : Text) (r : TestResult), m[k]? = some r → r.starttime = 0 := by
  constructor
  · intro h k r hr
    have hpub : m.published[k]? = some r := by rw [h, hr]
    rw [getElem?_published, hr, Option.map_some, Option.some.injEq] at hpub
    exact r.published_eq_self_iff.mp hpub
  · intro h
    apply Std.ExtTreeMap.ext_getElem?
    intro k
    rw [getElem?_published]
    cases hr : m[k]? with
    | none => rfl
    | some r => rw [Option.map_some, r.published_eq_self_iff.mpr (h k r hr)]

/-- A map is read back as it was written when all its start times are the default that
`results_to_capnp` leaves in the message. -/
theorem resultsMessage_roundTrip_iff (c : Text) (cm : Option Text) (m : TestResultsMap) :
    parseTestResults (.message (resultsMessage c cm m)) = .ok ⟨cm.getD [], c, m⟩ ↔
      ∀ (k : Text) (r : TestResult), m[k]? = some r → r.starttime = 0 := by
  rw [parseTestResults_resultsMessage, ← TestResultsMap.published_eq_self_iff]
  simp

def startedLater : TestResultsMap :=
  (∅ : TestResultsMap).insert "quota".toList ⟨.passed, 1000000000, 5⟩

theorem resultsMessage_loses_starttime :
    ¬ ∀ (c : Text) (cm : Option Text) (m : TestResultsMap),
      (∀ (k : Text) (r : TestResult), m[k]? = some r → 1000000000 ∣ r.starttime) →
        parseTestResults (.message (resultsMessage c cm m)) = .ok ⟨cm.getD [], c, m⟩ := by
  intro h
  have hseconds : ∀ (k : Text) (r : TestResult), startedLater[k]? = some r →
      1000000000 ∣ r.starttime := by
    intro k r hr
    rw [startedLater, TextMap.getElem?_insert] at hr
    split_ifs at hr with hk
    · obtain rfl := Option.some.inj hr
      decide
    · simp at hr
  have hread := h "c".toList none startedLater hseconds
  rw [parseTestResults_resultsMessage] at hread
  have htests : startedLater.published = startedLater := by simpa using hread
  have hstart := startedLater.published_eq_self_iff.mp htests "quota".toList ⟨.passed, 1000000000, 5⟩ (by
    rw [startedLater, TextMap.getElem?_insert, if_pos rfl])
  exact absurd hstart (by decide)

end KtestCi
