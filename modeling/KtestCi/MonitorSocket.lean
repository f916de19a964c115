import KtestCi.SupervisorLoop

/-!
# From the guest to the monitor

A test asks for a command of the machine's monitor by printing it on the console. The supervisor
connects on the first request and never again: if that fails, it drops this request and all later
ones. What reaches the socket are the requests of the lines that were read, in their order, each
once and as the test wrote it.
-/

namespace KtestCi

/-- What `qemu_monitor` prints: `echo` puts a blank between its arguments. -/
def qemuMonitor (args : List Text) : Text := [' '].intercalate ("QEMU_MONITOR".toList :: args)

namespace Supervisor

/-- The command of a line that asks for one. -/
def ConsoleLine.monitorCmd (l : ConsoleLine) : Option Text :=
  strStartsWith (strim l.raw) "QEMU_MONITOR ".toList

/-- What `monitor_send` writes to the socket, from the state of the connection when the line is
read. Nothing else in the body of the loop changes the connection. -/
def socketText (m : Monitor) (l : ConsoleLine) : Text :=
  match l.monitorCmd with
  | none => []
  | some cmd => match m with
    | .failed => []
    | .connected => cmd ++ ['\n']
    | .unused => if l.connects then cmd ++ ['\n'] else []

def Monitor.after (m : Monitor) (l : ConsoleLine) : Monitor :=
  match l.monitorCmd, m with
  | some _, .unused => if l.connects then .connected else .failed
  | _, m => m

/-- What is written to the socket while these lines are read. -/
def runSocket (o : Options) (s : State) : List ConsoleLine → Text
  | [] => []
  | l :: ls => socketText s.monitor l ++ match processLine o s l with
    | .next s' => runSocket o s' ls
    | _ => []

def reached (o : Options) (s : State) : List ConsoleLine → List ConsoleLine
  | [] => []
  | l :: ls => l :: match processLine o s l with
    | .next s' => reached o s' ls
    | _ => []

theorem reached_eq_take (o : Options) (s : State) (ls : List ConsoleLine) :
    reached o s ls = ls.take (reached o s ls).length := by
  induction ls generalizing s with
  | nil => rfl
  | cons l ls ih =>
    rw [reached, List.length_cons, List.take_succ_cons]
    congr 1
    cases processLine o s l with
    | next s' => exact ih s'
    | leaves s' ret => rfl
    | dies => rfl

@[simp] theorem monitor_logLine (s : State) (now : ℕ) (msg : Text) :
    (logLine s now msg).monitor = s.monitor := rfl

theorem monitor_monitorDrain (s : State) (cmd : Option Text) (rendered : List (ℕ × Text)) :
    (monitorDrain s cmd rendered).monitor = s.monitor := by
  unfold monitorDrain
  induction rendered generalizing s with
  | nil => rfl
  | cons r rendered ih =>
    rw [List.foldl_cons, ih]
    unfold monitorLogLine
    dsimp only
    split_ifs <;> rfl

theorem monitor_testFileOpen {o : Options} {s s' : State} {f : TestFile}
    (h : testFileOpen o s f = some s') : s'.monitor = s.monitor := by
  unfold testFileOpen at h
  split_ifs at h
  rw [← Option.some.inj h]

theorem monitor_writeTestFile {o : Options} {s s' : State} {f : TestFile} {content : Text}
    (h : writeTestFile o s f content = some s') : s'.monitor = s.monitor := by
  obtain ⟨s₁, hopen, rfl⟩ := Option.map_eq_some_iff.mp h
  exact (monitor_testFileOpen hopen :)

theorem monitor_testEnd {o : Options} {s s' : State} {now : ℕ} (h : testEnd o s now = some s') :
    s'.monitor = s.monitor := by
  obtain ⟨s₁, hwrite, heq⟩ := Option.bind_eq_some_iff.mp h
  rw [← Option.some.inj heq]
  exact (monitor_writeTestFile hwrite :)

theorem monitor_testStart {o : Options} {s s' : State} {t : Text} {now : ℕ}
    (h : testStart o s t now = some s') : s'.monitor = s.monitor := by
  obtain ⟨s₁, hopen, h⟩ := Option.bind_eq_some_iff.mp h
  obtain ⟨s₂, hwrite, heq⟩ := Option.bind_eq_some_iff.mp h
  rw [← Option.some.inj heq]
  have hopened : s₁.monitor = s.monitor := (monitor_testFileOpen hopen :)
  exact ((monitor_writeTestFile hwrite).trans hopened :)

theorem monitor_startTests {o : Options} {s s' : State} {newTest : Option Text} {now : ℕ}
    (h : startTests o s newTest now = some s') : s'.monitor = s.monitor := by
  cases newTest with
  | none => rw [← Option.some.inj h]
  | some t =>
    simp only [startTests] at h
    split_ifs at h
    · obtain ⟨s₁, hend, hstart⟩ := Option.bind_eq_some_iff.mp h
      exact (monitor_testStart hstart).trans (monitor_testEnd hend)
    · exact monitor_testStart h

theorem monitor_endTests {o : Options} {s s' : State} {line : Text} {now : ℕ}
    (h : endTests o s line now = some s') : s'.monitor = s.monitor := by
  unfold endTests at h
  split_ifs at h
  · obtain ⟨s₁, hwrite, hend⟩ := Option.bind_eq_some_iff.mp h
    exact (monitor_testEnd hend).trans (monitor_writeTestFile hwrite)
  · rw [← Option.some.inj h]

theorem monitor_readWatchdog (s : State) (line : Text) : (readWatchdog s line).monitor = s.monitor := by
  unfold readWatchdog
  cases strStartsWith line "WATCHDOG ".toList <;> rfl

theorem monitor_readMonitorCmd (s : State) (l : ConsoleLine) :
    (readMonitorCmd s l (strim l.raw)).monitor = s.monitor.after l := by
  unfold readMonitorCmd Monitor.after ConsoleLine.monitorCmd
  cases strStartsWith (strim l.raw) "QEMU_MONITOR ".toList with
  | none => rfl
  | some cmd =>
    simp only [monitorSend]
    cases hm : s.monitor with
    | failed => exact hm
    | connected => rw [monitor_monitorDrain, hm]
    | unused =>
      simp only
      split_ifs
      · rw [monitor_monitorDrain, monitor_monitorDrain]
      · rfl

/-- A line changes the connection only by asking for it. -/
theorem monitor_processLine {o : Options} {s s' : State} {l : ConsoleLine}
    (h : processLine o s l = .next s') : s'.monitor = s.monitor.after l := by
  simp only [processLine] at h
  cases hstart : startTests o (readWatchdog s (strim l.raw)) (testIsStarting (strim l.raw)) l.now with
  | none => simp [hstart] at h
  | some s₁ =>
    rw [hstart] at h
    simp only at h
    cases hend : endTests o (readMonitorCmd (logLine s₁ l.loggedAt (strim l.raw)) l (strim l.raw))
        (strim l.raw) l.now with
    | none => simp [hend] at h
    | some s₂ =>
      rw [hend] at h
      simp only at h
      have hmonitor : s₂.monitor = s.monitor.after l := by
        rw [monitor_endTests hend, monitor_readMonitorCmd, monitor_logLine, monitor_startTests hstart,
          monitor_readWatchdog]
      cases hstops : stops o (strim l.raw) with
      | some ret => simp [hstops] at h
      | none =>
        rw [hstops] at h
        rw [← Outcome.next.inj h]
        split_ifs <;> exact hmonitor

/-- The requests of some lines, if the first of them finds the monitor. -/
def forwarded (m : Monitor) (ls : List ConsoleLine) : Text :=
  let requests := (ls.filterMap ConsoleLine.monitorCmd).flatMap (fun cmd => cmd ++ ['\n'])
  match m with
  | .failed => []
  | .connected => requests
  | .unused => if (ls.find? (fun l => l.monitorCmd.isSome)).any ConsoleLine.connects then requests else []

theorem forwarded_cons (m : Monitor) (l : ConsoleLine) (ls : List ConsoleLine) :
    forwarded m (l :: ls) = socketText m l ++ forwarded (m.after l) ls := by
  unfold forwarded socketText Monitor.after
  cases hcmd : l.monitorCmd with
  | none => cases m <;> simp [hcmd]
  | some cmd =>
    cases m with
    | failed => simp
    | connected => simp [hcmd]
    | unused => cases hconnects : l.connects <;> simp [hcmd, hconnects]

theorem runSocket_eq (o : Options) (s : State) (ls : List ConsoleLine) :
    runSocket o s ls = forwarded s.monitor (reached o s ls) := by
  induction ls generalizing s with
  | nil => cases hm : s.monitor <;> simp [runSocket, reached, forwarded]
  | cons l ls ih =>
    rw [runSocket, reached, forwarded_cons]
    congr 1
    cases hl : processLine o s l with
    | next s' =>
      simp only
      rw [ih, monitor_processLine hl]
    | leaves s' ret => cases s.monitor.after l <;> simp [forwarded]
    | dies => cases s.monitor.after l <;> simp [forwarded]

/-- A line that the guest prints: a call of `qemu_monitor`, or anything else. -/
inductive Printed where
  | other (line : Text)
  | monitor (args : List Text)

def Printed.text : Printed → Text
  | other line => line
  | monitor args => qemuMonitor args

def Printed.request : Printed → Option Text
  | other _ => none
  | monitor args => some ([' '].intercalate args)

def Printed.sent (p : Printed) : Text := p.request.elim [] (fun cmd => cmd ++ ['\n'])

/-- What the console makes of a printed line. Other output does not look like a request, and the
arguments of a request are on one line. -/
structure Carries (p : Printed) (l : ConsoleLine) : Prop where
  raw : ∃ ending : Text, l.raw = p.text ++ ending ∧ ∀ c ∈ ending, c = '\n' ∨ c = '\r'
  plain : match p with
    | .other line => ¬ "QEMU_MONITOR ".toList <+: strim line
    | .monitor args => args ≠ [] ∧ ∀ a ∈ args, '\n' ∉ a ∧ '\r' ∉ a

theorem strim_append {t ending : Text} (h : ∀ c ∈ ending, c = '\n' ∨ c = '\r') :
    strim (t ++ ending) = strim t := by
  unfold strim
  rw [List.rdropWhile, List.reverse_append, List.dropWhile_append]
  have hall : ∀ c ∈ ending.reverse, (decide (c = '\n') || decide (c = '\r')) = true := by
    intro c hc
    simpa using h c (List.mem_reverse.mp hc)
  rw [List.dropWhile_eq_nil_iff.mpr hall]
  rfl

theorem strim_of_notMem {t : Text} (hn : '\n' ∉ t) (hr : '\r' ∉ t) : strim t = t := by
  unfold strim
  rw [List.rdropWhile_eq_self_iff]
  intro hne
  have hlast := List.getLast_mem hne
  have h₁ : t.getLast hne ≠ '\n' := fun heq => hn (heq ▸ hlast)
  have h₂ : t.getLast hne ≠ '\r' := fun heq => hr (heq ▸ hlast)
  simp [h₁, h₂]

theorem monitorCmd_of_carries {p : Printed} {l : ConsoleLine} (h : Carries p l) :
    l.monitorCmd = p.request := by
  obtain ⟨ending, hraw, hending⟩ := h.raw
  have hplain := h.plain
  unfold ConsoleLine.monitorCmd
  rw [hraw, strim_append hending]
  cases p with
  | other line =>
    simp only at hplain
    exact Option.not_isSome_iff_eq_none.mp (fun hs => hplain (strStartsWith_isSome.mp hs))
  | monitor args =>
    obtain ⟨hne, hargs⟩ := hplain
    have hline : qemuMonitor args = "QEMU_MONITOR ".toList ++ [' '].intercalate args := by
      rw [qemuMonitor, List.intercalate_cons_of_ne_nil hne]
      rfl
    have hone {c : Char} (hc : c ≠ ' ') (hword : c ∉ "QEMU_MONITOR".toList) (h : ∀ a ∈ args, c ∉ a) :
        c ∉ qemuMonitor args :=
      Text.notMem_intercalate (by simpa using hc) (List.forall_mem_cons.mpr ⟨hword, h⟩)
    have hstrim : strim (Printed.monitor args).text = "QEMU_MONITOR ".toList ++ [' '].intercalate args := by
      rw [Printed.text, strim_of_notMem, hline]
      · exact hone (by decide) (by decide) (fun a ha => (hargs a ha).1)
      · exact hone (by decide) (by decide) (fun a ha => (hargs a ha).2)
    have hstarts : "QEMU_MONITOR ".toList.isPrefixOf ("QEMU_MONITOR ".toList ++ [' '].intercalate args) = true :=
      List.isPrefixOf_iff_prefix.mpr (List.prefix_append _ _)
    rw [hstrim, strStartsWith, if_pos hstarts, List.drop_left]
    rfl

/-- The guest's requests for the lines that are read, if the first of them finds the monitor. -/
def received (guest : List (Printed × ConsoleLine)) : Text :=
  if (guest.find? (fun g => g.2.monitorCmd.isSome)).any (fun g => g.2.connects) then
    guest.flatMap (fun g => g.1.sent) else []

theorem forwarded_map_snd {guest : List (Printed × ConsoleLine)} (h : ∀ g ∈ guest, Carries g.1 g.2) :
    forwarded .unused (guest.map Prod.snd) = received guest := by
  have hsent : ((guest.map Prod.snd).filterMap ConsoleLine.monitorCmd).flatMap (fun cmd => cmd ++ ['\n']) =
      guest.flatMap (fun g => g.1.sent) := by
    induction guest with
    | nil => rfl
    | cons g guest ih =>
      rw [List.forall_mem_cons] at h
      rw [List.map_cons, List.filterMap_cons, monitorCmd_of_carries h.1, List.flatMap_cons, ← ih h.2]
      cases hrequest : g.1.request <;> simp [Printed.sent, hrequest]
  have hfirst : (guest.map Prod.snd).find? (fun l => l.monitorCmd.isSome) =
      (guest.find? (fun g => g.2.monitorCmd.isSome)).map Prod.snd := List.find?_map
  have hconnects : ((guest.map Prod.snd).find? (fun l => l.monitorCmd.isSome)).any ConsoleLine.connects =
      (guest.find? (fun g => g.2.monitorCmd.isSome)).any (fun g => g.2.connects) := by
    rw [hfirst, Option.any_map]
  rw [received, forwarded, hsent, hconnects]

/-- Whatever else the guest prints, the monitor receives the calls of `qemu_monitor` among the
lines that are read: in their order, each once, with its arguments joined by blanks. It receives
none of them if it cannot be reached on the first. -/
theorem requests_reach_monitor (o : Options) (files : Files) (guest : List (Printed × ConsoleLine))
    (h : ∀ g ∈ guest, Carries g.1 g.2) :
    runSocket o (initial o files) (guest.map Prod.snd) =
      received (guest.take (reached o (initial o files) (guest.map Prod.snd)).length) := by
  have hread : reached o (initial o files) (guest.map Prod.snd) =
      (guest.take (reached o (initial o files) (guest.map Prod.snd)).length).map Prod.snd := by
    rw [List.map_take, ← reached_eq_take]
  calc runSocket o (initial o files) (guest.map Prod.snd)
      = forwarded .unused (reached o (initial o files) (guest.map Prod.snd)) := runSocket_eq o _ _
    _ = _ := (congrArg (forwarded .unused) hread).trans
        (forwarded_map_snd (fun g hg => h g (List.mem_of_mem_take hg)))

def quietLine (raw : Text) : ConsoleLine := ⟨raw, 0, 0, true, [], []⟩

theorem requests_reach_monitor_unplug :
    runSocket ⟨false, false, 60, fun _ => false⟩ (initial ⟨false, false, 60, fun _ => false⟩ (fun _ _ => none))
      [quietLine "unplugging\r\n".toList, quietLine "QEMU_MONITOR device_del dev3\r\n".toList] =
        "device_del dev3\n".toList := by
  have hcarries : ∀ g ∈ [(Printed.other "unplugging".toList, quietLine "unplugging\r\n".toList),
      (.monitor ["device_del".toList, "dev3".toList], quietLine "QEMU_MONITOR device_del dev3\r\n".toList)],
      Carries g.1 g.2 := by
    intro g hg
    simp only [List.mem_cons, List.not_mem_nil, or_false] at hg
    rcases hg with rfl | rfl
    · exact ⟨⟨"\r\n".toList, by decide, by simp⟩, by decide⟩
    · exact ⟨⟨"\r\n".toList, by decide, by simp⟩, by decide⟩
  have hreach := requests_reach_monitor ⟨false, false, 60, fun _ => false⟩ (fun _ _ => none) _ hcarries
  refine hreach.trans ?_
  decide

end Supervisor
end KtestCi
