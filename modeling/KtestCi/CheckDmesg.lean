import KtestCi.EventRuns
import KtestCi.TextLines
import Mathlib.Data.List.DropRight

/-!
# The check of the kernel log after a test

`check_dmesg` pipes the kernel log through `awk`, which keeps what follows the last start
marker, into `grep -q`, which stops reading at the first line that matches. The three run
side by side: a stage that writes after its reader has gone may be killed for it. The
pipeline's status is that of the rightmost stage that did not end with zero, and the check
inverts it. So a match is reported only if `awk` ends well too, and a match that `grep` can
see before `awk` has written everything is lost in some runs.
-/

namespace KtestCi.CheckDmesg

/-- A character of a word, for `\b`. -/
def isWordChar (c : Char) : Bool := c.isAlphanum || c = '_'

/-- The pattern occurs where a word starts. The flag says that a word's character precedes. -/
def containsAtWord (pat : Text) : Bool → Text → Bool
  | _, [] => false
  | inWord, c :: cs =>
    (!inWord && pat.isPrefixOf (c :: cs)) || containsAtWord pat (isWordChar c) cs

def containsThen (first second : Text) (t : Text) : Bool :=
  t.tails.any (fun s => first.isPrefixOf s && Text.contains (s.drop first.length) second)

/-- The line matches one of the expressions given to `grep`. -/
def isSplat (line : Text) : Bool :=
  line.contains "kernel BUG at".toList ||
  line.contains "WARNING:".toList ||
  containsAtWord "BUG:".toList false line ||
  line.contains "Oops:".toList ||
  line.contains "possible recursive locking detected".toList ||
  line.contains "Internal error".toList ||
  (line.contains "INFO: suspicious RCU usage".toList ||
    line.contains "ERR: suspicious RCU usage".toList) ||
  line.contains "INFO: possible circular locking dependency detected".toList ||
  line.contains "general protection fault:".toList ||
  containsThen "BUG ".toList " remaining".toList line ||
  line.contains "UBSAN:".toList

/-- The line matches the expression given to `awk`. -/
def isTestMarker (line : Text) : Bool := line.contains "========= TEST".toList

/-- The variables of the `awk` program: `last` is zero before the first marker. -/
structure AwkVars where
  line : List Text
  last : ℕ

/-- The two rules that run on every record. -/
def AwkVars.record (v : AwkVars) (record : Text) : AwkVars where
  line := v.line ++ [record]
  last := if isTestMarker record then v.line.length + 1 else v.last

/-- What the `END` rule prints to the pipe. -/
def AwkVars.atEnd (v : AwkVars) : List Text := v.line.drop v.last

def awkLines (log : Text) : List Text := (log.lines.foldl AwkVars.record ⟨[], 0⟩).atEnd

/-- What `awk` writes for a log. -/
def awkOutput (log : Text) : Text := Text.unlines (awkLines log)

/-- How the standard output of `awk` is cut into writes. -/
structure Buffering where
  cut : Text → List Text
  flatten_cut : ∀ t, (cut t).flatten = t
  nil_notMem_cut : ∀ t, [] ∉ cut t

/-- `grep -q` stops: a line that has ended matches. -/
def found (read : Text) : Bool := read.endedLines.any isSplat

/-- The status of `grep` at the end of its input. -/
def grepStatus (read : Text) : UInt8 := if read.lines.any isSplat then 0 else 1

/-- The pipeline: what each stage has to write, what is in the pipes, what has been read, and
the status of the stages that have ended. -/
structure Pipeline where
  dmesgLeft : Text
  dmesg : Option UInt8
  toAwk : Text
  awkRead : Text
  /-- The writes of the `END` rule that are still to come. -/
  awkLeft : Option (List Text)
  awk : Option UInt8
  toGrep : Text
  grepRead : Text
  grep : Option UInt8

def Pipeline.start (log : Text) : Pipeline := ⟨log, none, [], [], none, none, [], [], none⟩

def sigpipe : UInt8 := 141

/-- What can happen next. Reads and the writes of `dmesg` say how much they move beyond one
character; a write says whether the writer is killed if its reader has gone. -/
inductive PipelineEvent where
  | dmesgWrites (more : ℕ) (killed : Bool)
  | dmesgEnds
  | awkReads (more : ℕ)
  | awkAtEnd
  | awkWrites (killed : Bool)
  | awkEnds
  | grepReads (more : ℕ)
  | grepMatches
  | grepEnds

open PipelineEvent

def step (b : Buffering) (p : Pipeline) : PipelineEvent → Option Pipeline
  | dmesgWrites more killed =>
    if p.dmesg = none ∧ p.dmesgLeft ≠ [] then
      if p.awk.isSome then
        some { p with
          dmesgLeft := p.dmesgLeft.drop (more + 1), dmesg := if killed then some sigpipe else none }
      else
        some { p with
          dmesgLeft := p.dmesgLeft.drop (more + 1)
          toAwk := p.toAwk ++ p.dmesgLeft.take (more + 1) }
    else none
  | dmesgEnds => if p.dmesg = none ∧ p.dmesgLeft = [] then some { p with dmesg := some 0 } else none
  | awkReads more =>
    if p.awk = none ∧ p.awkLeft = none ∧ p.toAwk ≠ [] then
      some { p with toAwk := p.toAwk.drop (more + 1), awkRead := p.awkRead ++ p.toAwk.take (more + 1) }
    else none
  | awkAtEnd =>
    if p.awk = none ∧ p.awkLeft = none ∧ p.toAwk = [] ∧ p.dmesg.isSome then
      some { p with awkLeft := some (b.cut (awkOutput p.awkRead)) }
    else none
  | awkWrites killed =>
    match p.awk, p.awkLeft with
    | none, some (block :: blocks) =>
      if p.grep.isSome then
        some { p with awkLeft := some blocks, awk := if killed then some sigpipe else none }
      else some { p with awkLeft := some blocks, toGrep := p.toGrep ++ block }
    | _, _ => none
  | awkEnds => if p.awk = none ∧ p.awkLeft = some [] then some { p with awk := some 0 } else none
  | grepReads more =>
    if p.grep = none ∧ p.toGrep ≠ [] ∧ found p.grepRead = false then
      some { p with
        toGrep := p.toGrep.drop (more + 1), grepRead := p.grepRead ++ p.toGrep.take (more + 1) }
    else none
  | grepMatches =>
    if p.grep = none ∧ found p.grepRead = true then some { p with grep := some 0 } else none
  | grepEnds =>
    if p.grep = none ∧ found p.grepRead = false ∧ p.toGrep = [] ∧ p.awk.isSome then
      some { p with grep := some (grepStatus p.grepRead) }
    else none

/-- The status of a pipeline under `pipefail`. -/
def pipefail (dmesg awk grep : UInt8) : UInt8 :=
  if grep ≠ 0 then grep else if awk ≠ 0 then awk else dmesg

/-- The status of `check_dmesg`, once all stages have ended. -/
def Pipeline.checkDmesg (p : Pipeline) : Option UInt8 :=
  match p.dmesg, p.awk, p.grep with
  | some dmesg, some awk, some grep => some (if pipefail dmesg awk grep = 0 then 1 else 0)
  | _, _, _ => none

def linesOfTest (log : Text) : List Text := log.lines.rtakeWhile (fun l => !isTestMarker l)

def HasSplat (log : Text) : Prop := ∃ l ∈ linesOfTest log, isSplat l = true

theorem awkLines_eq_linesOfTest (log : Text) : awkLines log = linesOfTest log := by
  have hrecords : ∀ ls : List Text, (ls.foldl AwkVars.record ⟨[], 0⟩).line = ls ∧
      (ls.foldl AwkVars.record ⟨[], 0⟩).last ≤ ls.length ∧
      ls.drop (ls.foldl AwkVars.record ⟨[], 0⟩).last = ls.rtakeWhile (fun l => !isTestMarker l) := by
    intro ls
    induction ls using List.reverseRecOn with
    | nil => simp
    | append_singleton ls l ih =>
      obtain ⟨hline, hle, hdrop⟩ := ih
      rw [List.foldl_concat, List.rtakeWhile_concat]
      simp only [AwkVars.record, hline, true_and]
      cases isTestMarker l with
      | true => simp
      | false =>
        simp only [Bool.false_eq_true, if_false, Bool.not_false, if_true]
        exact ⟨by simpa using hle.trans (Nat.le_succ _), by rw [List.drop_append_of_le_length hle, hdrop]⟩
  obtain ⟨hline, -, hdrop⟩ := hrecords log.lines
  rw [awkLines, AwkVars.atEnd, hline, hdrop, linesOfTest]

theorem newline_notMem_awkLines (log : Text) : ∀ l ∈ awkLines log, '\n' ∉ l := by
  intro l hl
  rw [awkLines_eq_linesOfTest] at hl
  exact Text.newline_notMem_lines ((List.rtakeWhile_suffix _ _).subset hl)

/-- All that `awk` writes decides what `grep` should say. -/
theorem found_awkOutput_iff (log : Text) : found (awkOutput log) = true ↔ HasSplat log := by
  rw [found, awkOutput, (Text.endedLines_unlines (newline_notMem_awkLines log)).1,
    awkLines_eq_linesOfTest, List.any_eq_true]
  rfl

theorem grepStatus_awkOutput (log : Text) :
    grepStatus (awkOutput log) = if found (awkOutput log) then 0 else 1 := by
  have hnewline := newline_notMem_awkLines log
  rw [grepStatus, found, awkOutput, Text.lines_unlines hnewline, (Text.endedLines_unlines hnewline).1]

theorem found_mono {read read' : Text} (h : read <+: read') (hfound : found read = true) :
    found read' = true := by
  obtain ⟨l, hl, hsplat⟩ := List.any_eq_true.mp hfound
  exact List.any_eq_true.mpr ⟨l, (Text.endedLines_mono h).subset hl, hsplat⟩

/-- The steps of the pipeline, with what each stage waits for. -/
inductive Moves (b : Buffering) (p : Pipeline) : Pipeline → Prop
  | dmesgWrites (n : ℕ) (hdmesg : p.dmesg = none) (hleft : p.dmesgLeft ≠ []) (hawk : p.awk = none) :
      Moves b p { p with
        dmesgLeft := p.dmesgLeft.drop (n + 1), toAwk := p.toAwk ++ p.dmesgLeft.take (n + 1) }
  | dmesgBroken (n : ℕ) (status : Option UInt8) (hdmesg : p.dmesg = none) (hleft : p.dmesgLeft ≠ [])
      (hawk : p.awk.isSome = true) :
      Moves b p { p with dmesgLeft := p.dmesgLeft.drop (n + 1), dmesg := status }
  | dmesgEnds (hdmesg : p.dmesg = none) (hleft : p.dmesgLeft = []) :
      Moves b p { p with dmesg := some 0 }
  | awkReads (n : ℕ) (hawk : p.awk = none) (hleft : p.awkLeft = none) (hpipe : p.toAwk ≠ []) :
      Moves b p { p with
        toAwk := p.toAwk.drop (n + 1), awkRead := p.awkRead ++ p.toAwk.take (n + 1) }
  | awkAtEnd (hawk : p.awk = none) (hleft : p.awkLeft = none) (hpipe : p.toAwk = [])
      (hdmesg : p.dmesg.isSome = true) :
      Moves b p { p with awkLeft := some (b.cut (awkOutput p.awkRead)) }
  | awkWrites (block : Text) (blocks : List Text) (hawk : p.awk = none)
      (hleft : p.awkLeft = some (block :: blocks)) (hgrep : p.grep = none) :
      Moves b p { p with awkLeft := some blocks, toGrep := p.toGrep ++ block }
  | awkBroken (block : Text) (blocks : List Text) (status : Option UInt8) (hawk : p.awk = none)
      (hleft : p.awkLeft = some (block :: blocks)) (hgrep : p.grep.isSome = true) :
      Moves b p { p with awkLeft := some blocks, awk := status }
  | awkEnds (hawk : p.awk = none) (hleft : p.awkLeft = some []) : Moves b p { p with awk := some 0 }
  | grepReads (n : ℕ) (hgrep : p.grep = none) (hpipe : p.toGrep ≠ []) :
      Moves b p { p with
        toGrep := p.toGrep.drop (n + 1), grepRead := p.grepRead ++ p.toGrep.take (n + 1) }
  | grepMatches (hgrep : p.grep = none) (hfound : found p.grepRead = true) :
      Moves b p { p with grep := some 0 }
  | grepEnds (hgrep : p.grep = none) (hfound : found p.grepRead = false) (hpipe : p.toGrep = [])
      (hawk : p.awk.isSome = true) : Moves b p { p with grep := some (grepStatus p.grepRead) }

theorem moves_of_step {b : Buffering} {p p' : Pipeline} {e : PipelineEvent}
    (h : step b p e = some p') : Moves b p p' := by
  cases e with
  | dmesgWrites more killed =>
    simp only [step] at h
    split_ifs at h with hready hawk
    · obtain rfl := Option.some.inj h
      exact .dmesgBroken more _ hready.1 hready.2 hawk
    · obtain rfl := Option.some.inj h
      exact .dmesgBroken more _ hready.1 hready.2 hawk
    · obtain rfl := Option.some.inj h
      exact .dmesgWrites more hready.1 hready.2 (by simpa using hawk)
  | dmesgEnds =>
    obtain ⟨hready, rfl⟩ := EventRuns.guard_eq_some h
    exact .dmesgEnds hready.1 hready.2
  | awkReads more =>
    obtain ⟨hready, rfl⟩ := EventRuns.guard_eq_some h
    exact .awkReads more hready.1 hready.2.1 hready.2.2
  | awkAtEnd =>
    obtain ⟨hready, rfl⟩ := EventRuns.guard_eq_some h
    exact .awkAtEnd hready.1 hready.2.1 hready.2.2.1 hready.2.2.2
  | awkWrites killed =>
    simp only [step] at h
    split at h
    next block blocks hawk hleft =>
      split_ifs at h with hgrep
      · obtain rfl := Option.some.inj h
        exact .awkBroken block blocks _ hawk hleft hgrep
      · obtain rfl := Option.some.inj h
        exact .awkBroken block blocks _ hawk hleft hgrep
      · obtain rfl := Option.some.inj h
        exact .awkWrites block blocks hawk hleft (by simpa using hgrep)
    · simp at h
  | awkEnds =>
    obtain ⟨hready, rfl⟩ := EventRuns.guard_eq_some h
    exact .awkEnds hready.1 hready.2
  | grepReads more =>
    obtain ⟨hready, rfl⟩ := EventRuns.guard_eq_some h
    exact .grepReads more hready.1 hready.2.1
  | grepMatches =>
    obtain ⟨hready, rfl⟩ := EventRuns.guard_eq_some h
    exact .grepMatches hready.1 hready.2
  | grepEnds =>
    obtain ⟨hready, rfl⟩ := EventRuns.guard_eq_some h
    exact .grepEnds hready.1 hready.2.1 hready.2.2.1 hready.2.2.2

/-- The log is on its way from `dmesg` to `awk`, which ends only after it has read all of it. -/
structure Flows (log : Text) (p : Pipeline) : Prop where
  text : p.awkRead ++ (p.toAwk ++ p.dmesgLeft) = log
  dmesg : ∀ status, p.dmesg = some status → status = 0 ∧ p.dmesgLeft = []
  waiting : p.awkLeft = none → p.awk = none
  ended : p.awkLeft.isSome = true → p.dmesg = some 0 ∧ p.toAwk = []

theorem flows_start (log : Text) : Flows log (.start log) where
  text := rfl
  dmesg := by simp [Pipeline.start]
  waiting := fun _ => rfl
  ended := by simp [Pipeline.start]

namespace Flows

variable {b : Buffering} {log : Text} {p p' : Pipeline}

/-- `dmesg` has ended by the time its reader does. -/
theorem dmesg_of_awk (h : Flows log p) (hawk : p.awk.isSome = true) : p.dmesg = some 0 := by
  cases hleft : p.awkLeft with
  | none => simp [h.waiting hleft] at hawk
  | some blocks => exact (h.ended (by simp [hleft])).1

theorem awkRead_eq (h : Flows log p) (hdmesg : p.dmesg.isSome = true) (hpipe : p.toAwk = []) :
    p.awkRead = log := by
  obtain ⟨status, hstatus⟩ := Option.isSome_iff_exists.mp hdmesg
  have htext := h.text
  rwa [hpipe, (h.dmesg status hstatus).2, List.append_nil, List.append_nil] at htext

theorem move (h : Flows log p) (hmove : Moves b p p') : Flows log p' := by
  cases hmove with
  | dmesgWrites n hdmesg hleft hawk =>
    refine ⟨?_, by simp [hdmesg], h.waiting, ?_⟩
    · rw [← h.text]
      simp
    · intro hended
      simp [(h.ended hended).1] at hdmesg
  | dmesgBroken n status hdmesg hleft hawk =>
    rw [h.dmesg_of_awk hawk] at hdmesg
    simp at hdmesg
  | dmesgEnds hdmesg hleft =>
    refine ⟨h.text, ?_, h.waiting, fun hended => ⟨rfl, (h.ended hended).2⟩⟩
    intro status hstatus
    exact ⟨(Option.some.inj hstatus).symm, hleft⟩
  | awkReads n hawk hleft hpipe =>
    refine ⟨?_, h.dmesg, h.waiting, by simp [hleft]⟩
    rw [← h.text, List.append_assoc, ← List.append_assoc (List.take _ _), List.take_append_drop]
  | awkAtEnd hawk hleft hpipe hdmesg =>
    obtain ⟨status, hstatus⟩ := Option.isSome_iff_exists.mp hdmesg
    obtain ⟨rfl, -⟩ := h.dmesg status hstatus
    exact ⟨h.text, h.dmesg, by simp, fun _ => ⟨hstatus, hpipe⟩⟩
  | awkWrites block blocks hawk hleft hgrep =>
    exact ⟨h.text, h.dmesg, by simp, fun _ => h.ended (by simp [hleft])⟩
  | awkBroken block blocks status hawk hleft hgrep =>
    exact ⟨h.text, h.dmesg, by simp, fun _ => h.ended (by simp [hleft])⟩
  | awkEnds hawk hleft => exact ⟨h.text, h.dmesg, by simp [hleft], h.ended⟩
  | grepReads n hgrep hpipe => exact ⟨h.text, h.dmesg, h.waiting, h.ended⟩
  | grepMatches hgrep hfound => exact ⟨h.text, h.dmesg, h.waiting, h.ended⟩
  | grepEnds hgrep hfound hpipe hawk => exact ⟨h.text, h.dmesg, h.waiting, h.ended⟩

end Flows

def pending (status : Option UInt8) : ℕ := if status.isNone then 1 else 0

@[simp] theorem pending_none : pending none = 1 := rfl

@[simp] theorem pending_some (status : UInt8) : pending (some status) = 0 := rfl

def writesLeft (blocks : List Text) : ℕ := blocks.length + blocks.flatten.length

/-- Events that are still to come, at most. -/
def eventsLeft (b : Buffering) (log : Text) (p : Pipeline) : ℕ :=
  2 * p.dmesgLeft.length + pending p.dmesg + p.toAwk.length +
    (p.awkLeft.elim (writesLeft (b.cut (awkOutput log)) + 1) writesLeft) + pending p.awk +
    p.toGrep.length + pending p.grep

theorem length_drop_lt {t : Text} (h : t ≠ []) (n : ℕ) :
    (t.drop (n + 1)).length < t.length ∧ (t.drop (n + 1)).length + (t.take (n + 1)).length = t.length := by
  have hpos := List.length_pos_iff.mpr h
  simp only [List.length_drop, List.length_take]
  omega

theorem eventsLeft_lt {b : Buffering} {log : Text} {p p' : Pipeline} (h : Flows log p)
    (hmove : Moves b p p') : eventsLeft b log p' < eventsLeft b log p := by
  unfold eventsLeft
  cases hmove with
  | dmesgWrites n hdmesg hleft hawk =>
    have hlength := length_drop_lt hleft n
    simp only [List.length_append]
    omega
  | dmesgBroken n status hdmesg hleft hawk =>
    rw [h.dmesg_of_awk hawk] at hdmesg
    simp at hdmesg
  | dmesgEnds hdmesg hleft =>
    simp only [hdmesg, pending_none, pending_some]
    omega
  | awkReads n hawk hleft hpipe =>
    have hlength := length_drop_lt hpipe n
    simp only
    omega
  | awkAtEnd hawk hleft hpipe hdmesg =>
    simp only [hleft, h.awkRead_eq hdmesg hpipe, Option.elim_none, Option.elim_some]
    omega
  | awkWrites block blocks hawk hleft hgrep =>
    simp only [hleft, Option.elim_some, writesLeft, List.length_cons, List.flatten_cons, List.length_append]
    omega
  | awkBroken block blocks status hawk hleft hgrep =>
    have hpending : pending status ≤ pending p.awk := by
      rw [hawk]
      cases status <;> simp
    simp only [hleft, Option.elim_some, writesLeft, List.length_cons, List.flatten_cons, List.length_append]
    omega
  | awkEnds hawk hleft =>
    simp only [hawk, pending_none, pending_some]
    omega
  | grepReads n hgrep hpipe =>
    have hlength := length_drop_lt hpipe n
    simp only
    omega
  | grepMatches hgrep hfound =>
    simp only [hgrep, pending_none, pending_some]
    omega
  | grepEnds hgrep hfound hpipe hawk =>
    simp only [hgrep, pending_none, pending_some]
    omega

theorem length_le_eventsLeft {b : Buffering} {log : Text} {events : List PipelineEvent} {p : Pipeline}
    (hrun : EventRuns.run (step b) (.start log) events = some p) :
    events.length ≤ eventsLeft b log (.start log) := by
  have hmeasure : ∀ (p : Pipeline) (e : PipelineEvent) (p' : Pipeline), Flows log p →
      step b p e = some p' →
        eventsLeft b log p' + (if (fun _ => true) e then 1 else 0) ≤ eventsLeft b log p :=
    fun p e p' h hstep => eventsLeft_lt h (moves_of_step hstep)
  have hcount : events.countP (fun _ => true) + eventsLeft b log p ≤ eventsLeft b log (.start log) :=
    EventRuns.run_countP_add_le (fun p e p' h hstep => h.move (moves_of_step hstep)) hmeasure
      (flows_start log) hrun
  rw [List.countP_true] at hcount
  omega

theorem step_awkWrites (b : Buffering) {p : Pipeline} (hawk : p.awk = none) {block : Text}
    {blocks : List Text} (hleft : p.awkLeft = some (block :: blocks)) (killed : Bool) :
    step b p (.awkWrites killed) = if p.grep.isSome then
      some { p with awkLeft := some blocks, awk := if killed then some sigpipe else none }
    else some { p with awkLeft := some blocks, toGrep := p.toGrep ++ block } := by
  simp only [step, hawk, hleft]

theorem exists_step (b : Buffering) {p : Pipeline} (h : p.checkDmesg = none) :
    ∃ e p', step b p e = some p' := by
  cases hdmesg : p.dmesg with
  | none =>
    by_cases hleft : p.dmesgLeft = []
    · exact ⟨.dmesgEnds, _, if_pos ⟨hdmesg, hleft⟩⟩
    · by_cases hawk : p.awk.isSome
      · exact ⟨.dmesgWrites 0 true, _, by rw [step, if_pos ⟨hdmesg, hleft⟩, if_pos hawk]⟩
      · exact ⟨.dmesgWrites 0 true, _, by rw [step, if_pos ⟨hdmesg, hleft⟩, if_neg hawk]⟩
  | some dmesg =>
    cases hawk : p.awk with
    | none =>
      cases hleft : p.awkLeft with
      | none =>
        by_cases hpipe : p.toAwk = []
        · exact ⟨.awkAtEnd, _, if_pos ⟨hawk, hleft, hpipe, by simp [hdmesg]⟩⟩
        · exact ⟨.awkReads 0, _, if_pos ⟨hawk, hleft, hpipe⟩⟩
      | some blocks =>
        cases blocks with
        | nil => exact ⟨.awkEnds, _, if_pos ⟨hawk, hleft⟩⟩
        | cons block blocks =>
          by_cases hgrep : p.grep.isSome
          · exact ⟨.awkWrites true, _, by rw [step_awkWrites b hawk hleft, if_pos hgrep]⟩
          · exact ⟨.awkWrites true, _, by rw [step_awkWrites b hawk hleft, if_neg hgrep]⟩
    | some awk =>
      have hgrep : p.grep = none := by
        cases hgrep : p.grep with
        | none => rfl
        | some grep => simp [Pipeline.checkDmesg, hdmesg, hawk, hgrep] at h
      cases hfound : found p.grepRead with
      | true => exact ⟨.grepMatches, _, if_pos ⟨hgrep, hfound⟩⟩
      | false =>
        by_cases hpipe : p.toGrep = []
        · exact ⟨.grepEnds, _, if_pos ⟨hgrep, hfound, hpipe, by simp [hawk]⟩⟩
        · exact ⟨.grepReads 0, _, if_pos ⟨hgrep, hpipe, hfound⟩⟩

def beforeLastWrite (b : Buffering) (log : Text) : Text := (b.cut (awkOutput log)).dropLast.flatten

/-- Everything `grep` ends on is the whole output of `awk`, which ends well. -/
structure Reports (b : Buffering) (log : Text) (p : Pipeline) : Prop extends Flows log p where
  unread : p.awkLeft = none → p.toGrep = [] ∧ p.grepRead = [] ∧ p.grep = none
  written : ∀ blocks, p.awkLeft = some blocks → ∃ done, b.cut (awkOutput log) = done ++ blocks ∧
    (p.grep = none → p.grepRead ++ p.toGrep = done.flatten)
  awk_ok : ∀ status, p.awk = some status → status = 0 ∧ p.awkLeft = some []
  grep_ok : ∀ status, p.grep = some status →
    p.awkLeft = some [] ∧ (status = 0 ↔ found (awkOutput log) = true)

theorem reports_start (b : Buffering) (log : Text) : Reports b log (.start log) where
  toFlows := flows_start log
  unread := fun _ => ⟨rfl, rfl, rfl⟩
  written := by simp [Pipeline.start]
  awk_ok := by simp [Pipeline.start]
  grep_ok := by simp [Pipeline.start]

theorem beforeLastWrite_prefix_awkOutput (b : Buffering) (log : Text) :
    beforeLastWrite b log <+: awkOutput log := by
  rw [← b.flatten_cut (awkOutput log), beforeLastWrite]
  exact (List.dropLast_prefix _).flatten

theorem flatten_prefix_beforeLastWrite {b : Buffering} {log : Text} {done : List Text} {block : Text}
    {blocks : List Text} (h : b.cut (awkOutput log) = done ++ block :: blocks) :
    done.flatten <+: beforeLastWrite b log := by
  rw [beforeLastWrite, h, List.dropLast_append_of_ne_nil (by simp), List.flatten_append]
  exact List.prefix_append _ _

namespace Reports

variable {b : Buffering} {log : Text} {p p' : Pipeline}

/-- A match is found on the whole output only. -/
theorem awkLeft_of_found (h : Reports b log p) (hnot : found (beforeLastWrite b log) = false)
    (hgrep : p.grep = none) (hfound : found p.grepRead = true) :
    p.awkLeft = some [] ∧ found (awkOutput log) = true := by
  cases hleft : p.awkLeft with
  | none =>
    rw [(h.unread hleft).2.1] at hfound
    simp [found, Text.endedLines, Text.endedFrom] at hfound
  | some blocks =>
    obtain ⟨done, hcut, hread⟩ := h.written blocks hleft
    have hpre : p.grepRead <+: done.flatten := ⟨_, hread hgrep⟩
    cases blocks with
    | nil =>
      have hout : done.flatten = awkOutput log := by
        rw [← b.flatten_cut (awkOutput log), hcut, List.append_nil]
      exact ⟨rfl, found_mono (hout ▸ hpre) hfound⟩
    | cons block blocks =>
      have htrue := found_mono (hpre.trans (flatten_prefix_beforeLastWrite hcut)) hfound
      simp [hnot] at htrue

theorem move (h : Reports b log p) (hnot : found (beforeLastWrite b log) = false)
    (hmove : Moves b p p') : Reports b log p' := by
  have hflows := h.toFlows.move hmove
  cases hmove with
  | dmesgWrites n hdmesg hleft hawk => exact ⟨hflows, h.unread, h.written, h.awk_ok, h.grep_ok⟩
  | dmesgBroken n status hdmesg hleft hawk => exact ⟨hflows, h.unread, h.written, h.awk_ok, h.grep_ok⟩
  | dmesgEnds hdmesg hleft => exact ⟨hflows, h.unread, h.written, h.awk_ok, h.grep_ok⟩
  | awkReads n hawk hleft hpipe => exact ⟨hflows, h.unread, h.written, h.awk_ok, h.grep_ok⟩
  | awkAtEnd hawk hleft hpipe hdmesg =>
    obtain ⟨hto, hread, hgrep⟩ := h.unread hleft
    refine ⟨hflows, by simp, ?_, by simp [hawk], by simp [hgrep]⟩
    rintro blocks hblocks
    obtain rfl := Option.some.inj hblocks
    refine ⟨[], by rw [h.awkRead_eq hdmesg hpipe]; rfl, fun _ => ?_⟩
    simp [hto, hread]
  | awkWrites block blocks hawk hleft hgrep =>
    obtain ⟨done, hcut, hread⟩ := h.written _ hleft
    refine ⟨hflows, by simp, ?_, by simp [hawk], by simp [hgrep]⟩
    rintro blocks' hblocks
    obtain rfl := Option.some.inj hblocks
    refine ⟨done ++ [block], by simpa using hcut, fun _ => ?_⟩
    simp [← hread hgrep]
  | awkBroken block blocks status hawk hleft hgrep =>
    obtain ⟨status', hstatus⟩ := Option.isSome_iff_exists.mp hgrep
    simp [(h.grep_ok status' hstatus).1] at hleft
  | awkEnds hawk hleft =>
    refine ⟨hflows, h.unread, h.written, ?_, h.grep_ok⟩
    rintro status hstatus
    exact ⟨(Option.some.inj hstatus).symm, hleft⟩
  | grepReads n hgrep hpipe =>
    refine ⟨hflows, ?_, ?_, h.awk_ok, by simp [hgrep]⟩
    · intro hleft
      exact absurd (h.unread hleft).1 hpipe
    · intro blocks hblocks
      obtain ⟨done, hcut, hread⟩ := h.written blocks hblocks
      refine ⟨done, hcut, fun _ => ?_⟩
      rw [← hread hgrep, List.append_assoc, List.take_append_drop]
  | grepMatches hgrep hfound =>
    obtain ⟨hleft, hall⟩ := h.awkLeft_of_found hnot hgrep hfound
    refine ⟨hflows, by simp [hleft], ?_, h.awk_ok, ?_⟩
    · intro blocks hblocks
      obtain ⟨done, hcut, -⟩ := h.written blocks hblocks
      exact ⟨done, hcut, by simp⟩
    · rintro status hstatus
      obtain rfl := Option.some.inj hstatus
      exact ⟨hleft, by simp [hall]⟩
  | grepEnds hgrep hfound hpipe hawk =>
    obtain ⟨status', hstatus'⟩ := Option.isSome_iff_exists.mp hawk
    obtain ⟨-, hleft⟩ := h.awk_ok status' hstatus'
    obtain ⟨done, hcut, hread⟩ := h.written [] hleft
    have hout : p.grepRead = awkOutput log := by
      rw [← b.flatten_cut (awkOutput log), hcut, List.append_nil, ← hread hgrep, hpipe, List.append_nil]
    refine ⟨hflows, by simp [hleft], ?_, h.awk_ok, ?_⟩
    · intro blocks hblocks
      obtain ⟨done', hcut', -⟩ := h.written blocks hblocks
      exact ⟨done', hcut', by simp⟩
    · rintro status hstatus
      obtain rfl := Option.some.inj hstatus
      refine ⟨hleft, ?_⟩
      rw [hout, grepStatus_awkOutput]
      cases found (awkOutput log) <;> simp

theorem checkDmesg_ne_zero_iff (h : Reports b log p) {status : UInt8} (hstatus : p.checkDmesg = some status) :
    status ≠ 0 ↔ HasSplat log := by
  rw [← found_awkOutput_iff]
  unfold Pipeline.checkDmesg at hstatus
  split at hstatus
  next dmesg awk grep hdmesg hawk hgrep =>
    obtain rfl := Option.some.inj hstatus
    obtain ⟨rfl, -⟩ := h.dmesg dmesg hdmesg
    obtain ⟨rfl, -⟩ := h.awk_ok awk hawk
    rw [← (h.grep_ok grep hgrep).2]
    by_cases hzero : grep = 0 <;> simp [pipefail, hzero]
  · simp at hstatus

end Reports

theorem run_awkWrites (b : Buffering) (blocks done : List Text) (p : Pipeline) (hawk : p.awk = none)
    (hgrep : p.grep = none) (hleft : p.awkLeft = some (done ++ blocks)) :
    EventRuns.run (step b) p (List.replicate done.length (.awkWrites false)) =
      some { p with awkLeft := some blocks, toGrep := p.toGrep ++ done.flatten } := by
  induction done generalizing p with
  | nil =>
    obtain ⟨dmesgLeft, dmesg, toAwk, awkRead, awkLeft, awk, toGrep, grepRead, grep⟩ := p
    obtain rfl : awkLeft = some blocks := hleft
    simp [EventRuns.run]
  | cons block done ih =>
    have hrest := ih { p with awkLeft := some (done ++ blocks), toGrep := p.toGrep ++ block } hawk hgrep rfl
    rw [List.length_cons, List.replicate_succ, EventRuns.run, step_awkWrites b hawk hleft,
      if_neg (by simp [hgrep]), Option.bind_some]
    exact hrest.trans (by simp)

theorem run_untilAtEnd (b : Buffering) {log : Text} (hlog : log ≠ []) :
    EventRuns.run (step b) (.start log)
      [.dmesgWrites log.length false, .dmesgEnds, .awkReads log.length, .awkAtEnd] =
        some ⟨[], some 0, [], log, some (b.cut (awkOutput log)), none, [], [], none⟩ := by
  have htake : log.take (log.length + 1) = log := List.take_of_length_le (Nat.le_succ _)
  simp [EventRuns.run, step, Pipeline.start, hlog, htake]

theorem ne_nil_of_found {b : Buffering} {log : Text} (h : found (beforeLastWrite b log) = true) :
    log ≠ [] ∧ beforeLastWrite b log ≠ [] := by
  have hfound : found [] = false := rfl
  have hne : beforeLastWrite b log ≠ [] := by
    intro hnil
    simp [hnil, hfound] at h
  refine ⟨?_, hne⟩
  rintro rfl
  exact hne (List.prefix_nil.mp (beforeLastWrite_prefix_awkOutput b []))

/-- `grep` leaves with a match, and the last write of `awk` kills it. -/
theorem exists_run_of_found {b : Buffering} {log : Text} (h : found (beforeLastWrite b log) = true) :
    ∃ events p, EventRuns.run (step b) (.start log) events = some p ∧ p.checkDmesg = some 0 := by
  obtain ⟨hlog, hbefore⟩ := ne_nil_of_found h
  have hcut : b.cut (awkOutput log) ≠ [] := by
    intro hnil
    simp [beforeLastWrite, hnil] at hbefore
  have hsplit := List.dropLast_append_getLast hcut
  have hwrites := run_awkWrites b [(b.cut (awkOutput log)).getLast hcut] (b.cut (awkOutput log)).dropLast
    ⟨[], some 0, [], log, some (b.cut (awkOutput log)), none, [], [], none⟩ rfl rfl (by rw [hsplit])
  have htake : (beforeLastWrite b log).take ((beforeLastWrite b log).length + 1) = beforeLastWrite b log :=
    List.take_of_length_le (Nat.le_succ _)
  have hstarted : found [] = false := rfl
  refine ⟨[.dmesgWrites log.length false, .dmesgEnds, .awkReads log.length, .awkAtEnd] ++
    (List.replicate (b.cut (awkOutput log)).dropLast.length (.awkWrites false) ++
      [.grepReads (beforeLastWrite b log).length, .grepMatches, .awkWrites true]),
    ⟨[], some 0, [], log, some [], some sigpipe, [], beforeLastWrite b log, some 0⟩, ?_, ?_⟩
  · rw [EventRuns.run_append, run_untilAtEnd b hlog, Option.bind_some, EventRuns.run_append, hwrites,
      Option.bind_some, ← beforeLastWrite]
    simp [EventRuns.run, step, hbefore, htake, hstarted, h]
  · have hkilled : pipefail 0 sigpipe 0 ≠ 0 := by decide
    simp [Pipeline.checkDmesg, hkilled]

/-- However the stages are scheduled, the check returns, and it fails on a splat and only then. -/
structure ChecksLog (b : Buffering) (log : Text) : Prop where
  bounded : ∃ n, ∀ events p, EventRuns.run (step b) (.start log) events = some p → events.length ≤ n
  progress : ∀ events p, EventRuns.run (step b) (.start log) events = some p → p.checkDmesg = none →
    ∃ e p', step b p e = some p'
  right : ∀ events p status, EventRuns.run (step b) (.start log) events = some p →
    p.checkDmesg = some status → (status ≠ 0 ↔ HasSplat log)

theorem not_checksLog_of_found {b : Buffering} {log : Text} (h : found (beforeLastWrite b log) = true) :
    ¬ ChecksLog b log := by
  intro hchecks
  obtain ⟨events, p, hrun, hstatus⟩ := exists_run_of_found h
  have hsplat : HasSplat log :=
    (found_awkOutput_iff log).mp (found_mono (beforeLastWrite_prefix_awkOutput b log) h)
  exact (hchecks.right events p 0 hrun hstatus).mpr hsplat rfl

/-- The check is right in every run exactly when no line that ends before the last write of
`awk` matches. -/
theorem checksLog_iff (b : Buffering) (log : Text) :
    ChecksLog b log ↔ found (beforeLastWrite b log) = false := by
  constructor
  · intro hchecks
    rw [← Bool.not_eq_true]
    exact fun h => not_checksLog_of_found h hchecks
  · intro hnot
    refine ⟨⟨_, fun _ _ => length_le_eventsLeft⟩, fun _ _ _ h => exists_step b h, ?_⟩
    intro events p status hrun hstatus
    have hreports : Reports b log p := EventRuns.run_invariant_all
      (fun p e p' h hstep => h.move hnot (moves_of_step hstep)) (reports_start b log) hrun
    exact hreports.checkDmesg_ne_zero_iff hstatus

/-- Cut a text into blocks of a size. -/
def blocks (size : ℕ) : ℕ → Text → List Text
  | 0, t => if t = [] then [] else [t]
  | fuel + 1, t => if t = [] then [] else t.take size :: blocks size fuel (t.drop size)

theorem flatten_blocks (size fuel : ℕ) (t : Text) : (blocks size fuel t).flatten = t := by
  induction fuel generalizing t with
  | zero =>
    rw [blocks]
    split_ifs with hnil <;> simp [hnil]
  | succ fuel ih =>
    rw [blocks]
    split_ifs with hnil
    · simp [hnil]
    · rw [List.flatten_cons, ih, List.take_append_drop]

theorem nil_notMem_blocks {size : ℕ} (hsize : size ≠ 0) (fuel : ℕ) (t : Text) :
    [] ∉ blocks size fuel t := by
  induction fuel generalizing t with
  | zero =>
    rw [blocks]
    split_ifs with hnil
    · simp
    · simpa using Ne.symm hnil
  | succ fuel ih =>
    rw [blocks]
    split_ifs with hnil
    · simp
    · rw [List.mem_cons, not_or]
      refine ⟨fun htake => ?_, ih _⟩
      rcases List.take_eq_nil_iff.mp htake.symm with hzero | hempty
      · exact hsize hzero
      · exact hnil hempty

/-- Output to a pipe, in blocks of 4096 characters. -/
def stdioBuffering : Buffering where
  cut := fun t => blocks 4096 t.length t
  flatten_cut := fun t => flatten_blocks 4096 t.length t
  nil_notMem_cut := fun t => nil_notMem_blocks (by decide) t.length t

def longLog : Text :=
  Text.unlines ("WARNING: CPU: 0 PID: 1 at fs/bcachefs/super.c".toList ::
    List.replicate 130 (List.replicate 31 'a'))

theorem checkDmesg_misses_splat : ¬ ChecksLog stdioBuffering longLog :=
  not_checksLog_of_found (by decide +kernel)

end KtestCi.CheckDmesg
