import KtestCi.MonitorRender
import Mathlib.Data.List.DropRight

/-!
# The line of a `struct render`

Carriage returns, backspaces, cursor movements and truncations move the cursor and the length
of the line one by one. The cursor never passes the length, so that a character is stored at
most one past the bytes of the line, and these are all of this line: what an earlier line left
in the array is not shown again.
-/

namespace KtestCi
namespace Monitor
open ScanChunks

/-- A store into the array, or the end of a line. -/
inductive Access where
  | store (i : ℕ) (b : UInt8)
  | endOfLine
  deriving DecidableEq, Repr

def Access.InBounds : Access → Prop
  | store i _ => i < lineSize
  | endOfLine => True

def Access.apply (line : ℕ → UInt8) : Access → ℕ → UInt8
  | store i b => Function.update line i b
  | endOfLine => line

/-- What `render_putc` does to the array. -/
def putcAccesses (r : Render) (c : UInt8) : List Access :=
  if c = '\n'.toUInt8 then [.store r.len 0, .endOfLine]
  else if c = '\r'.toUInt8 then []
  else if c = '\x08'.toUInt8 then []
  else if r.cursor < lineSize - 1 then [.store r.cursor c]
  else []

/-- What `monitor_drain` does to it in the end. -/
def drainAccesses (r : Render) : List Access := if r.len ≠ 0 then [.store r.len 0] else []

/-- A `struct render` and everything that was done to its array. -/
structure Watched where
  render : Render
  accesses : List Access

def Mode.accesses : Mode → Render → UInt8 → List Access
  | text, r, c => if c ≠ '\x1b'.toUInt8 then putcAccesses r c else []
  | _, _, _ => []

def watcher : Scanner UInt8 Mode Watched where
  idle := .text
  next := Mode.next
  act m w c := ⟨m.act w.render c, w.accesses ++ m.accesses w.render c⟩

/-- The accesses that belong to the line that is not ended yet. -/
def sinceEndOfLine (accesses : List Access) : List Access := accesses.rtakeWhile (fun a => a ≠ .endOfLine)

theorem sinceEndOfLine_store (accesses : List Access) (i : ℕ) (b : UInt8) :
    sinceEndOfLine (accesses ++ [.store i b]) = sinceEndOfLine accesses ++ [.store i b] := by
  simp [sinceEndOfLine]

/-- The cursor is in the line, the line is in the array, and its bytes are its own. -/
structure Watched.Sound (w : Watched) : Prop where
  cursor_le : w.render.cursor ≤ w.render.len
  len_le : w.render.len ≤ lineSize - 1
  inBounds : ∀ a ∈ w.accesses, a.InBounds
  line_eq : w.render.line = w.accesses.foldl Access.apply zeroed.line
  fresh : ∀ i < w.render.len, .store i (w.render.line i) ∈ sinceEndOfLine w.accesses

theorem sound_zeroed : Watched.Sound ⟨zeroed, []⟩ := ⟨le_rfl, Nat.zero_le _, by simp, rfl, by simp [zeroed]⟩

theorem Watched.Sound.move {w : Watched} (h : w.Sound) {cursor len : ℕ} (hcursor : cursor ≤ len)
    (hlen : len ≤ w.render.len) :
    Watched.Sound ⟨{ w.render with cursor := cursor, len := len }, w.accesses⟩ where
  cursor_le := hcursor
  len_le := hlen.trans h.len_le
  inBounds := h.inBounds
  line_eq := h.line_eq
  fresh i hi := h.fresh i (lt_of_lt_of_le hi hlen)

theorem Watched.Sound.newline {w : Watched} (h : w.Sound) :
    Watched.Sound ⟨renderPutc w.render '\n'.toUInt8, w.accesses ++ [.store w.render.len 0, .endOfLine]⟩ where
  cursor_le := le_rfl
  len_le := Nat.zero_le _
  inBounds := by
    have hlen := h.len_le
    rw [List.forall_mem_append]
    refine ⟨h.inBounds, ?_⟩
    simp only [List.forall_mem_cons, Access.InBounds, lineSize] at hlen ⊢
    exact ⟨by omega, trivial, by simp⟩
  line_eq := by
    rw [List.foldl_append, ← h.line_eq]
    rfl
  fresh i hi := absurd hi (Nat.not_lt_zero i)

theorem Watched.Sound.write {w : Watched} (h : w.Sound) (hroom : w.render.cursor < lineSize - 1)
    (c : UInt8) :
    Watched.Sound ⟨{ w.render with
      line := Function.update w.render.line w.render.cursor c
      cursor := w.render.cursor + 1
      len := max w.render.len (w.render.cursor + 1) }, w.accesses ++ [.store w.render.cursor c]⟩ where
  cursor_le := le_max_right _ _
  len_le := max_le h.len_le (by omega)
  inBounds := by
    rw [List.forall_mem_append, List.forall_mem_singleton]
    exact ⟨h.inBounds, lt_of_lt_of_le hroom (Nat.sub_le _ _)⟩
  line_eq := by
    rw [List.foldl_append, ← h.line_eq]
    rfl
  fresh i hi := by
    have hcursor := h.cursor_le
    rw [sinceEndOfLine_store, List.mem_append, List.mem_singleton]
    by_cases hic : i = w.render.cursor
    · subst hic
      exact .inr (congrArg (Access.store _) (Function.update_self _ _ _))
    · have hold : Function.update w.render.line w.render.cursor c i = w.render.line i :=
        Function.update_of_ne hic _ _
      have hmax : i < max w.render.len (w.render.cursor + 1) := hi
      have hi' : i < w.render.len := by omega
      have hstored := h.fresh i hi'
      rw [← hold] at hstored
      exact .inl hstored

theorem Watched.Sound.putc {w : Watched} (h : w.Sound) (c : UInt8) :
    Watched.Sound ⟨renderPutc w.render c, w.accesses ++ putcAccesses w.render c⟩ := by
  unfold putcAccesses
  split_ifs with hnewline hreturn hback hroom
  · subst hnewline
    exact h.newline
  · rw [renderPutc, if_neg hnewline, if_pos hreturn, List.append_nil]
    exact h.move (Nat.zero_le _) le_rfl
  · rw [renderPutc, if_neg hnewline, if_neg hreturn, if_pos hback, List.append_nil]
    exact h.move ((Nat.sub_le _ _).trans h.cursor_le) le_rfl
  · rw [renderPutc, if_neg hnewline, if_neg hreturn, if_neg hback, if_pos hroom]
    exact h.write hroom c
  · rw [renderPutc, if_neg hnewline, if_neg hreturn, if_neg hback, if_neg hroom, List.append_nil]
    exact h

theorem Watched.Sound.final {w : Watched} (h : w.Sound) (arg : ℕ) (c : UInt8) :
    Watched.Sound ⟨renderFinal w.render arg c, w.accesses⟩ := by
  rw [renderFinal]
  by_cases hleft : c = 'D'.toUInt8
  · rw [if_pos hleft]
    refine h.move ?_ le_rfl
    have hcursor := h.cursor_le
    split_ifs <;> omega
  · rw [if_neg hleft]
    split_ifs
    · exact h.move le_rfl h.cursor_le
    · exact h

/-- Every byte keeps the line sound, wherever it stands in an escape sequence. -/
theorem Watched.Sound.act {w : Watched} (h : w.Sound) (m : Mode) (c : UInt8) : (watcher.act m w c).Sound := by
  cases m with
  | text =>
    simp only [watcher, Mode.act, Mode.accesses]
    split_ifs
    · exact h.putc c
    · rw [List.append_nil]
      exact h
  | escape =>
    simp only [watcher, Mode.act, Mode.accesses, List.append_nil]
    exact h
  | number arg =>
    simp only [watcher, Mode.act, Mode.accesses, List.append_nil]
    split_ifs
    · exact h
    · exact h.final arg c

def watched (chunks : List (List UInt8)) : Watched := watcher.feedAll ⟨zeroed, []⟩ chunks

/-- What holds between two bytes of a stream, and also if the rest is written out there. -/
structure Watched.Safe (w : Watched) : Prop where
  line_eq : w.render.line = w.accesses.foldl Access.apply zeroed.line
  cursor_le : w.render.cursor ≤ w.render.len
  len_le : w.render.len ≤ lineSize - 1
  inBounds : ∀ a ∈ w.accesses ++ drainAccesses w.render, a.InBounds
  /-- Every byte of the line was stored since the last newline. -/
  fresh : ∀ i < w.render.len, .store i (w.render.line i) ∈ sinceEndOfLine w.accesses
  shown : ∀ b ∈ w.render.string, ∃ i, .store i b ∈ sinceEndOfLine w.accesses

theorem render_watched (chunks : List (List UInt8)) :
    (watched chunks).render = renderAll zeroed chunks := by
  rw [renderAll_eq_feedAll]
  exact Scanner.feedAll_map (f := Watched.render) rfl rfl (fun _ _ _ => rfl) ⟨zeroed, []⟩ chunks

theorem Watched.Sound.safe {w : Watched} (h : w.Sound) : w.Safe where
  line_eq := h.line_eq
  cursor_le := h.cursor_le
  len_le := h.len_le
  inBounds := by
    rw [List.forall_mem_append]
    refine ⟨h.inBounds, ?_⟩
    have hlen := h.len_le
    unfold drainAccesses
    split_ifs
    · rw [List.forall_mem_singleton, Access.InBounds]
      unfold lineSize at hlen ⊢
      omega
    · simp
  fresh := h.fresh
  shown := by
    intro b hb
    obtain ⟨i, hi, rfl⟩ := List.mem_map.mp ((List.takeWhile_prefix _).subset hb)
    exact ⟨i, h.fresh i (List.mem_range.mp hi)⟩

/-- After every byte of every stream, in whatever chunks: the cursor is in the line, the line
in the array, every store in bounds, and every byte of the line was stored since the last
newline. -/
theorem render_sound (chunks : List (List UInt8)) :
    (watched chunks).render = renderAll zeroed chunks ∧ (watched chunks).Safe := by
  have h : (watched chunks).Sound :=
    Scanner.feedAll_invariant (fun m _ c h => h.act m c) sound_zeroed chunks
  exact ⟨render_watched chunks, h.safe⟩

end Monitor
end KtestCi
