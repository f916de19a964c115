import KtestCi.MonitorRender
import KtestCi.SupervisorLoop

/-!
# The echo of a command

The monitor's readline redraws its line after every keystroke: it moves the cursor back to the
start of the line, prints the line as it is now and erases what is left of the old one. Rendering
undoes all of it. A drain then has the command, the lines of the reply and the prompt, and only
lines of the reply get into the log.
-/

namespace KtestCi
namespace Monitor
open ScanChunks

def Printable (b : UInt8) : Prop :=
  b ≠ '\n'.toUInt8 ∧ b ≠ '\r'.toUInt8 ∧ b ≠ '\x08'.toUInt8 ∧ b ≠ '\x1b'.toUInt8 ∧ b ≠ 0

instance (b : UInt8) : Decidable (Printable b) := by
  unfold Printable
  infer_instance

structure Fits (t : List UInt8) : Prop where
  printable : ∀ b ∈ t, Printable b
  length_le : t.length ≤ lineSize - 1

def cursorLeft : List UInt8 := [0x1b, '['.toUInt8, 'D'.toUInt8]

def eraseLine : List UInt8 := [0x1b, '['.toUInt8, 'K'.toUInt8]

def redraw (shown line : List UInt8) : List UInt8 :=
  (List.replicate shown.length cursorLeft).flatten ++ (line ++ eraseLine)

def redraws : List UInt8 → List (List UInt8) → List UInt8
  | _, [] => []
  | shown, line :: lines => redraw shown line ++ redraws line lines

def newline : List UInt8 := ['\r'.toUInt8, '\n'.toUInt8]

/-- What is printed of a line that is edited, entered and answered, and of the next prompt. -/
def answered (edits replies : List (List UInt8)) (prompt : List UInt8) : List UInt8 :=
  redraws [] edits ++ (newline ++ ((replies.map (fun t => t ++ newline)).flatten ++ prompt))

/-- The lines that a drain hands on: those that were ended, and what is left at the end. -/
def drainLines (chunks : List (List UInt8)) : List (List UInt8) :=
  let r := renderAll zeroed chunks
  r.emitted ++ if r.len ≠ 0 then [r.string] else []

/-- No read ends inside of an escape sequence. -/
def ReadsWhole (chunks : List (List UInt8)) : Prop := ∀ c ∈ chunks, renderer.modeAfter .text c = .text

instance (chunks : List (List UInt8)) : Decidable (ReadsWhole chunks) := by
  unfold ReadsWhole
  infer_instance

/-- The line shows a text, with the cursor in front of its `n`th byte. -/
structure Shows (r : Render) (t : List UInt8) (n : ℕ) : Prop where
  len : r.len = t.length
  cursor : r.cursor = n
  line : ∀ i b, t[i]? = some b → r.line i = b

theorem Shows.string {r : Render} {t : List UInt8} {n : ℕ} (h : Shows r t n) (ht : ∀ b ∈ t, b ≠ 0) :
    r.string = t := by
  have hline : (List.range r.len).map r.line = t := by
    refine List.ext_getElem? ?_
    intro i
    rw [h.len, List.getElem?_map]
    by_cases hi : i < t.length
    · rw [List.getElem?_range hi, Option.map_some, h.line i t[i] (List.getElem?_eq_getElem hi),
        List.getElem?_eq_getElem hi]
    · rw [List.getElem?_eq_none (by simpa using hi), List.getElem?_eq_none (by simpa using hi)]
      rfl
  rw [Render.string, hline, List.takeWhile_eq_self_iff]
  intro b hb
  simpa using ht b hb

theorem shows_zeroed : Shows zeroed [] 0 := ⟨rfl, rfl, by simp⟩

/-- Reads that end outside of escape sequences are one read. -/
theorem renderAll_eq_render {chunks : List (List UInt8)} (h : ReadsWhole chunks) (r : Render) :
    renderAll r chunks = render r chunks.flatten := by
  induction chunks generalizing r with
  | nil => rfl
  | cons c chunks ih =>
    have hc := h c List.mem_cons_self
    have happend : renderText r (c ++ chunks.flatten) = renderText (renderText r c) chunks.flatten := by
      rw [← (feedFrom_renderer _).1, ← (feedFrom_renderer _).1, ← (feedFrom_renderer c).1,
        Scanner.feedFrom_append, hc]
    rw [renderAll, List.foldl_cons, List.flatten_cons]
    exact (ih (fun c' hc' => h c' (List.mem_cons_of_mem c hc')) (render r c)).trans happend.symm

theorem renderText_cons {r : Render} {b : UInt8} (hb : b ≠ '\x1b'.toUInt8) (buf : List UInt8) :
    renderText r (b :: buf) = renderText (renderPutc r b) buf := by
  rw [renderText, if_pos hb]

theorem Shows.putc {r : Render} {t : List UInt8} {n : ℕ} (h : Shows r t n) {b : UInt8} (hb : Printable b)
    (hn : n < lineSize - 1) (hnt : n ≤ t.length) :
    Shows (renderPutc r b) (t.take n ++ b :: t.drop (n + 1)) (n + 1) ∧
      (renderPutc r b).emitted = r.emitted := by
  obtain ⟨h₁, h₂, h₃, -, -⟩ := hb
  have hcursor : r.cursor < lineSize - 1 := h.cursor.symm ▸ hn
  rw [renderPutc, if_neg h₁, if_neg h₂, if_neg h₃, if_pos hcursor]
  refine ⟨⟨?_, ?_, ?_⟩, rfl⟩
  · simp only [h.len, h.cursor, List.length_append, List.length_take, List.length_cons, List.length_drop]
    omega
  · simp [h.cursor]
  · intro i c hi
    have htake : (t.take n).length = n := by simp [hnt]
    simp only [h.cursor]
    rcases lt_trichotomy i n with hlt | rfl | hgt
    · rw [Function.update_of_ne hlt.ne]
      rw [List.getElem?_append_left (htake.symm ▸ hlt), List.getElem?_take_of_lt hlt] at hi
      exact h.line i c hi
    · rw [List.getElem?_append_right htake.le, htake, Nat.sub_self] at hi
      rw [Function.update_self]
      exact Option.some.inj hi
    · rw [Function.update_of_ne hgt.ne']
      obtain ⟨k, rfl⟩ : ∃ k, i = n + 1 + k := ⟨i - (n + 1), by omega⟩
      rw [List.getElem?_append_right (by omega), htake, show n + 1 + k - n = k + 1 by omega,
        List.getElem?_cons_succ, List.getElem?_drop] at hi
      exact h.line _ c hi

theorem Shows.write {r : Render} {t w : List UInt8} {n : ℕ} (h : Shows r t n) (hw : ∀ b ∈ w, Printable b)
    (hn : n + w.length ≤ lineSize - 1) (hnt : n ≤ t.length) (buf : List UInt8) :
    ∃ r', Shows r' (t.take n ++ (w ++ t.drop (n + w.length))) (n + w.length) ∧ r'.emitted = r.emitted ∧
      renderText r (w ++ buf) = renderText r' buf := by
  induction w generalizing r t n with
  | nil => exact ⟨r, by simpa using h, rfl, rfl⟩
  | cons b w ih =>
    rw [List.forall_mem_cons] at hw
    rw [List.length_cons] at hn
    obtain ⟨hput, hemitted⟩ := h.putc hw.1 (by omega) hnt
    have htake : (t.take n).length = n := by simp [hnt]
    obtain ⟨r', hr', hemitted', hrender⟩ := ih hput hw.2 (by omega) (by simp [htake])
    refine ⟨r', ?_, hemitted'.trans hemitted, ?_⟩
    · have hfront : (t.take n ++ b :: t.drop (n + 1)).take (n + 1) = t.take n ++ [b] := by
        rw [List.take_append, htake, List.take_of_length_le (by omega)]
        simp
      have hback : (t.take n ++ b :: t.drop (n + 1)).drop (n + 1 + w.length) = t.drop (n + (w.length + 1)) := by
        rw [List.drop_append, htake, List.drop_of_length_le (by omega),
          show n + 1 + w.length - n = w.length + 1 by omega, List.drop_succ_cons, List.drop_drop, List.nil_append]
        congr 1
        omega
      rw [hfront, hback] at hr'
      rw [List.length_cons, show n + (w.length + 1) = n + 1 + w.length by omega]
      rw [show n + (w.length + 1) = n + 1 + w.length by omega] at hr'
      simpa using hr'
    · rw [List.cons_append, renderText_cons hw.1.2.2.2.1, hrender]

theorem renderText_sequence (r : Render) {c : UInt8} (hc : isDigit c = false) (buf : List UInt8) :
    renderText r (0x1b :: '['.toUInt8 :: c :: buf) = renderText (renderFinal r 0 c) buf := by
  rw [renderText, if_neg (by decide), renderEscape, if_pos rfl, renderNumber, if_neg (by simp [hc])]

theorem renderText_cursorLeft (r : Render) (buf : List UInt8) :
    renderText r (cursorLeft ++ buf) = renderText { r with cursor := r.cursor - 1 } buf := by
  have hcursor : (if 1 < r.cursor then r.cursor - 1 else 0) = r.cursor - 1 := by
    split_ifs <;> omega
  have hfinal : renderFinal r 0 'D'.toUInt8 = { r with cursor := r.cursor - 1 } := by
    rw [renderFinal, if_pos rfl]
    simp only [if_true, hcursor]
  rw [← hfinal]
  exact renderText_sequence r (by decide) buf

theorem Shows.left {r : Render} {t : List UInt8} {n : ℕ} (h : Shows r t n) (k : ℕ) (buf : List UInt8) :
    ∃ r', Shows r' t (n - k) ∧ r'.emitted = r.emitted ∧
      renderText r ((List.replicate k cursorLeft).flatten ++ buf) = renderText r' buf := by
  induction k generalizing r n with
  | zero => exact ⟨r, h, rfl, rfl⟩
  | succ k ih =>
    have hone : Shows { r with cursor := r.cursor - 1 } t (n - 1) := ⟨h.len, by simp [h.cursor], h.line⟩
    obtain ⟨r', hr', hemitted, hrender⟩ := ih hone
    refine ⟨r', ?_, hemitted, ?_⟩
    · rwa [show n - (k + 1) = n - 1 - k by omega]
    · rw [List.replicate_succ, List.flatten_cons, List.append_assoc, renderText_cursorLeft, hrender]

theorem Shows.erase {r : Render} {t : List UInt8} {n : ℕ} (h : Shows r t n) (hn : n ≤ t.length)
    (buf : List UInt8) : ∃ r', Shows r' (t.take n) n ∧ r'.emitted = r.emitted ∧
      renderText r (eraseLine ++ buf) = renderText r' buf := by
  refine ⟨{ r with len := r.cursor }, ⟨?_, h.cursor, ?_⟩, rfl, ?_⟩
  · simp [h.cursor, hn]
  · intro i b hi
    rw [List.getElem?_take] at hi
    split_ifs at hi
    exact h.line i b hi
  · have hfinal : renderFinal r 0 'K'.toUInt8 = { r with len := r.cursor } := by
      rw [renderFinal, if_neg (by decide), if_pos rfl]
    rw [← hfinal]
    exact renderText_sequence r (by decide) buf

theorem Shows.redraw {r : Render} {shown line : List UInt8} (h : Shows r shown shown.length)
    (hline : Fits line) (buf : List UInt8) : ∃ r', Shows r' line line.length ∧ r'.emitted = r.emitted ∧
      renderText r (Monitor.redraw shown line ++ buf) = renderText r' buf := by
  obtain ⟨r₁, h₁, he₁, hr₁⟩ := h.left shown.length (line ++ (eraseLine ++ buf))
  rw [Nat.sub_self] at h₁
  obtain ⟨r₂, h₂, he₂, hr₂⟩ := h₁.write hline.printable (by simpa using hline.length_le) (Nat.zero_le _)
    (eraseLine ++ buf)
  rw [Nat.zero_add, List.take_zero, List.nil_append] at h₂
  obtain ⟨r₃, h₃, he₃, hr₃⟩ := h₂.erase (by simp) buf
  refine ⟨r₃, ?_, he₃.trans (he₂.trans he₁), ?_⟩
  · rwa [List.take_left] at h₃
  · rw [Monitor.redraw, List.append_assoc, List.append_assoc, hr₁, hr₂, hr₃]

theorem Shows.redraws {r : Render} {shown : List UInt8} {lines : List (List UInt8)}
    (h : Shows r shown shown.length) (hlines : ∀ l ∈ lines, Fits l) (buf : List UInt8) :
    ∃ r', Shows r' (lines.getLast?.getD shown) (lines.getLast?.getD shown).length ∧
      r'.emitted = r.emitted ∧ renderText r (Monitor.redraws shown lines ++ buf) = renderText r' buf := by
  induction lines generalizing r shown with
  | nil => exact ⟨r, h, rfl, rfl⟩
  | cons line lines ih =>
    rw [List.forall_mem_cons] at hlines
    obtain ⟨r₁, h₁, he₁, hr₁⟩ := h.redraw hlines.1 (Monitor.redraws line lines ++ buf)
    obtain ⟨r₂, h₂, he₂, hr₂⟩ := ih h₁ hlines.2
    refine ⟨r₂, ?_, he₂.trans he₁, ?_⟩
    · rw [List.getLast?_cons, Option.getD_some]
      exact h₂
    · rw [Monitor.redraws, List.append_assoc, hr₁, hr₂]

theorem Shows.newline {r : Render} {t : List UInt8} {n : ℕ} (h : Shows r t n) (ht : ∀ b ∈ t, Printable b)
    (buf : List UInt8) : ∃ r', Shows r' [] 0 ∧ r'.emitted = r.emitted ++ [t] ∧
      renderText r (Monitor.newline ++ buf) = renderText r' buf := by
  have hreturn : renderPutc r '\r'.toUInt8 = { r with cursor := 0 } := by
    rw [renderPutc, if_neg (by decide), if_pos rfl]
  have hshows : Shows { r with cursor := 0 } t 0 := ⟨h.len, rfl, h.line⟩
  refine ⟨renderPutc { r with cursor := 0 } '\n'.toUInt8, ?_, ?_, ?_⟩
  · rw [renderPutc, if_pos rfl]
    exact ⟨rfl, rfl, by simp⟩
  · rw [renderPutc, if_pos rfl, hshows.string (fun b hb => (ht b hb).2.2.2.2)]
  · rw [Monitor.newline, List.cons_append, renderText_cons (by decide), hreturn, List.cons_append,
      renderText_cons (by decide), List.nil_append]

theorem Shows.type {r : Render} {t : List UInt8} (h : Shows r [] 0) (ht : Fits t) (buf : List UInt8) :
    ∃ r', Shows r' t t.length ∧ r'.emitted = r.emitted ∧ renderText r (t ++ buf) = renderText r' buf := by
  have hwrite := h.write ht.printable (by simpa using ht.length_le) le_rfl buf
  simpa using hwrite

theorem Shows.replies {r : Render} {ts : List (List UInt8)} (h : Shows r [] 0) (hts : ∀ t ∈ ts, Fits t)
    (buf : List UInt8) : ∃ r', Shows r' [] 0 ∧ r'.emitted = r.emitted ++ ts ∧
      renderText r ((ts.map (fun t => t ++ Monitor.newline)).flatten ++ buf) = renderText r' buf := by
  induction ts generalizing r with
  | nil => exact ⟨r, h, by simp, rfl⟩
  | cons t ts ih =>
    rw [List.forall_mem_cons] at hts
    obtain ⟨r₁, h₁, he₁, hr₁⟩ := h.type hts.1
      (Monitor.newline ++ ((ts.map (fun t => t ++ Monitor.newline)).flatten ++ buf))
    obtain ⟨r₂, h₂, he₂, hr₂⟩ := h₁.newline hts.1.printable
      ((ts.map (fun t => t ++ Monitor.newline)).flatten ++ buf)
    obtain ⟨r₃, h₃, he₃, hr₃⟩ := ih h₂ hts.2
    refine ⟨r₃, h₃, ?_, ?_⟩
    · rw [he₃, he₂, he₁, List.append_assoc, List.singleton_append]
    · rw [List.map_cons, List.flatten_cons, List.append_assoc, List.append_assoc, hr₁, hr₂, hr₃]

theorem drainLines_answered {edits replies : List (List UInt8)} {prompt : List UInt8}
    {chunks : List (List UInt8)} (hedits : ∀ l ∈ edits, Fits l) (hreplies : ∀ t ∈ replies, Fits t)
    (hprompt : Fits prompt) (hwhole : ReadsWhole chunks)
    (hstream : chunks.flatten = answered edits replies prompt) :
    drainLines chunks = edits.getLast?.getD [] :: (replies ++ if prompt ≠ [] then [prompt] else []) := by
  obtain ⟨r₁, h₁, he₁, hr₁⟩ := shows_zeroed.redraws hedits
    (newline ++ ((replies.map (fun t => t ++ newline)).flatten ++ prompt))
  have hlast : ∀ b ∈ edits.getLast?.getD [], Printable b := by
    cases hl : edits.getLast? with
    | none => simp
    | some l => exact (hedits l (List.mem_of_getLast? hl)).printable
  obtain ⟨r₂, h₂, he₂, hr₂⟩ := h₁.newline hlast ((replies.map (fun t => t ++ newline)).flatten ++ prompt)
  obtain ⟨r₃, h₃, he₃, hr₃⟩ := h₂.replies hreplies prompt
  obtain ⟨r₄, h₄, he₄, hr₄⟩ := h₃.type hprompt []
  have hrender : renderAll zeroed chunks = r₄ := by
    rw [renderAll_eq_render hwhole, hstream, render, answered, hr₁, hr₂, hr₃]
    rw [List.append_nil] at hr₄
    rw [hr₄]
    rfl
  have hemitted : r₄.emitted = edits.getLast?.getD [] :: replies := by
    rw [he₄, he₃, he₂, he₁]
    rfl
  have hlen : r₄.len ≠ 0 ↔ prompt ≠ [] := by
    rw [h₄.len, ne_eq, List.length_eq_zero_iff]
  simp only [drainLines, hrender, hemitted, hlen, h₄.string (fun b hb => (hprompt.printable b hb).2.2.2.2),
    List.cons_append]

end Monitor

namespace Supervisor

def textOf (bytes : List UInt8) : Text := bytes.map (fun b => Char.ofNat b.toNat)

/-- A line of the monitor that is logged: not the prompt, the banner or the echo. -/
def isNews (cmd : Option Text) (l : Text) : Bool :=
  !(l.isEmpty || (strStartsWith l "(qemu)".toList).isSome || (strStartsWith l "QEMU ".toList).isSome
    || (strStartsWith l "Type 'help'".toList).isSome) &&
  !cmd.any (fun cmd => (strStartsWith cmd l).isSome)

def logNews (s : State) (reply : ℕ × Text) : State := logLine s reply.1 ("qemu monitor: ".toList ++ reply.2)

theorem monitorLogLine_eq (cmd : Option Text) (s : State) (reply : ℕ × Text) :
    monitorLogLine cmd s reply = if isNews cmd reply.2 then logNews s reply else s := by
  unfold monitorLogLine isNews logNews
  dsimp only
  generalize (reply.2.isEmpty || (strStartsWith reply.2 "(qemu)".toList).isSome ||
    (strStartsWith reply.2 "QEMU ".toList).isSome ||
    (strStartsWith reply.2 "Type 'help'".toList).isSome) = chrome
  generalize (cmd.any fun cmd => (strStartsWith cmd reply.2).isSome) = echo
  cases chrome <;> cases echo <;> rfl

theorem monitorDrain_eq (cmd : Option Text) (s : State) (rendered : List (ℕ × Text)) :
    monitorDrain s cmd rendered = (rendered.filter (fun r => isNews cmd r.2)).foldl logNews s := by
  unfold monitorDrain
  induction rendered generalizing s with
  | nil => rfl
  | cons r rendered ih =>
    rw [List.foldl_cons, ih, monitorLogLine_eq, List.filter_cons]
    split_ifs <;> rfl

theorem not_isNews_self (cmd : Text) : isNews (some cmd) cmd = false := by
  have hself : (strStartsWith cmd cmd).isSome = true := strStartsWith_isSome.mpr (List.prefix_refl cmd)
  simp [isNews, hself]

/-- When a command has been sent, the drain logs the lines of the reply that are news, and neither
the keystrokes nor the prompt, however the line was edited and the stream was read. -/
theorem only_replies_logged (s : State) (edits replies : List (List UInt8)) (chunks : List (List UInt8))
    (rendered : List (ℕ × Text)) (hedits : ∀ l ∈ edits, Monitor.Fits l)
    (hreplies : ∀ t ∈ replies, Monitor.Fits t) (hwhole : Monitor.ReadsWhole chunks)
    (hstream : chunks.flatten = Monitor.answered edits replies ("(qemu) ".toList.map Char.toUInt8))
    (hrendered : rendered.map Prod.snd = (Monitor.drainLines chunks).map textOf) :
    ∃ logged : List (ℕ × Text), logged.Sublist rendered ∧
      logged.map Prod.snd =
        (replies.map textOf).filter (isNews (some (textOf (edits.getLast?.getD [])))) ∧
      monitorDrain s (some (textOf (edits.getLast?.getD []))) rendered = logged.foldl logNews s := by
  have hprompt : Monitor.Fits ("(qemu) ".toList.map Char.toUInt8) := ⟨by simpa using by decide, by decide⟩
  refine ⟨_, List.filter_sublist, ?_, monitorDrain_eq _ s rendered⟩
  have hlines : rendered.map Prod.snd = textOf (edits.getLast?.getD []) ::
      (replies.map textOf ++ ["(qemu) ".toList]) := by
    rw [hrendered, Monitor.drainLines_answered hedits hreplies hprompt hwhole hstream, if_pos (by decide),
      List.map_cons, List.map_append]
    rfl
  have hnews : isNews (some (textOf (edits.getLast?.getD []))) "(qemu) ".toList = false := by
    have hchrome : (strStartsWith "(qemu) ".toList "(qemu)".toList).isSome = true := by decide
    rw [isNews, hchrome, Bool.or_true, Bool.true_or, Bool.true_or, Bool.not_true, Bool.false_and]
  calc (rendered.filter (fun r => isNews (some (textOf (edits.getLast?.getD []))) r.2)).map Prod.snd
      = (rendered.map Prod.snd).filter (isNews (some (textOf (edits.getLast?.getD [])))) := by
        rw [List.filter_map]
        rfl
    _ = (replies.map textOf).filter (isNews (some (textOf (edits.getLast?.getD [])))) := by
        rw [hlines, List.filter_cons_of_neg (by simp [not_isNews_self]), List.filter_append,
          List.filter_cons_of_neg (Bool.eq_false_iff.mp hnews), List.filter_nil, List.append_nil]

/-- A device that is not there, with the reply in a second read. -/
theorem only_replies_logged_refusal : ∃ logged : List (ℕ × Text),
    logged.map Prod.snd = ["no dev9".toList] ∧
    monitorDrain (initial ⟨false, false, 60, fun _ => false⟩ (fun _ _ => none)) (some "del dev9".toList)
      [(3, "del dev9".toList), (3, "no dev9".toList), (4, "(qemu) ".toList)] =
        logged.foldl logNews (initial ⟨false, false, 60, fun _ => false⟩ (fun _ _ => none)) := by
  let typed := ("del dev9".toList.map Char.toUInt8).inits.tail
  let echo := Monitor.redraws [] typed ++ Monitor.newline
  let reply := ("no dev9\r\n(qemu) ".toList).map Char.toUInt8
  obtain ⟨logged, -, hlogged, hdrain⟩ := only_replies_logged _ typed [("no dev9".toList).map Char.toUInt8]
    [echo, reply] [(3, "del dev9".toList), (3, "no dev9".toList), (4, "(qemu) ".toList)]
    (fun l hl => ⟨by revert l; decide +kernel, by revert l; decide +kernel⟩)
    (fun l hl => ⟨by revert l; decide +kernel, by revert l; decide +kernel⟩)
    (by decide +kernel) (by decide +kernel) (by decide +kernel)
  exact ⟨logged, hlogged, hdrain⟩

end Supervisor
end KtestCi
