import KtestCi.ScanChunks
import Mathlib.Logic.Function.Basic

/-!
# Rendering what the monitor echoes

The monitor is a readline that redraws its line with escape sequences. `render` moves a cursor
over a line the way a terminal would, and emits the line at every newline. It looks ahead in
the chunk it was given and keeps nothing of an escape sequence that the chunk ends in: the
rest of the sequence is then taken for text.
-/

namespace KtestCi
namespace Monitor
open ScanChunks

/-- A `struct render`, with the lines it has emitted. Of its array only the first `lineSize`
bytes are there. -/
structure Render where
  line : ℕ → UInt8
  cursor : ℕ
  len : ℕ
  emitted : List (List UInt8)

def lineSize : ℕ := 4096

def zeroed : Render := ⟨fun _ => 0, 0, 0, []⟩

/-- The line as a C string, once it is terminated at its length. -/
def Render.string (r : Render) : List UInt8 := ((List.range r.len).map r.line).takeWhile (fun b => b != 0)

def renderPutc (r : Render) (c : UInt8) : Render :=
  if c = '\n'.toUInt8 then
    { line := Function.update r.line r.len 0, cursor := 0, len := 0, emitted := r.emitted ++ [r.string] }
  else if c = '\r'.toUInt8 then { r with cursor := 0 }
  else if c = '\x08'.toUInt8 then { r with cursor := r.cursor - 1 }
  else if r.cursor < lineSize - 1 then
    { r with
      line := Function.update r.line r.cursor c
      cursor := r.cursor + 1
      len := max r.len (r.cursor + 1) }
  else r

def isDigit (c : UInt8) : Bool := '0'.toUInt8 ≤ c && c ≤ '9'.toUInt8

/-- One more digit of an `unsigned`. -/
def pushDigit (arg : ℕ) (c : UInt8) : ℕ := (arg * 10 + (c.toNat - '0'.toNat)) % UInt32.size

def renderFinal (r : Render) (arg : ℕ) (c : UInt8) : Render :=
  if c = 'D'.toUInt8 then
    let back := if arg = 0 then 1 else arg
    { r with cursor := if back < r.cursor then r.cursor - back else 0 }
  else if c = 'K'.toUInt8 then { r with len := r.cursor }
  else r

mutual

/-- The loop of `render`. -/
def renderText (r : Render) : List UInt8 → Render
  | [] => r
  | c :: buf => if c ≠ '\x1b'.toUInt8 then renderText (renderPutc r c) buf else renderEscape r buf

def renderEscape (r : Render) : List UInt8 → Render
  | [] => r
  | c :: buf => if c = '['.toUInt8 then renderNumber r 0 buf else renderText r buf

def renderNumber (r : Render) (arg : ℕ) : List UInt8 → Render
  | [] => r
  | c :: buf => if isDigit c then renderNumber r (pushDigit arg c) buf else renderText (renderFinal r arg c) buf

end

def render (r : Render) (buf : List UInt8) : Render := renderText r buf

def renderAll (r : Render) (chunks : List (List UInt8)) : Render := chunks.foldl render r

/-- Where `render` stands in an escape sequence. -/
inductive Mode where
  | text | escape
  | number (arg : ℕ)
  deriving DecidableEq, Repr

def Mode.next : Mode → UInt8 → Mode
  | text, c => if c ≠ '\x1b'.toUInt8 then text else escape
  | escape, c => if c = '['.toUInt8 then number 0 else text
  | number arg, c => if isDigit c then number (pushDigit arg c) else text

def Mode.act : Mode → Render → UInt8 → Render
  | text, r, c => if c ≠ '\x1b'.toUInt8 then renderPutc r c else r
  | escape, r, _ => r
  | number arg, r, c => if isDigit c then r else renderFinal r arg c

def renderer : Scanner UInt8 Mode Render := ⟨.text, Mode.next, Mode.act⟩

theorem feedFrom_renderer (buf : List UInt8) :
    (∀ r, renderer.feedFrom .text r buf = renderText r buf) ∧
    (∀ r, renderer.feedFrom .escape r buf = renderEscape r buf) ∧
    ∀ r arg, renderer.feedFrom (.number arg) r buf = renderNumber r arg buf := by
  induction buf with
  | nil => simp [Scanner.feedFrom, renderText, renderEscape, renderNumber]
  | cons c buf ih =>
    obtain ⟨htext, hescape, hnumber⟩ := ih
    refine ⟨?_, ?_, ?_⟩
    · intro r
      rw [Scanner.feedFrom, renderText]
      by_cases hc : c = '\x1b'.toUInt8
      · simp [renderer, Mode.next, Mode.act, hc, ← hescape]
      · simp [renderer, Mode.next, Mode.act, hc, ← htext]
    · intro r
      rw [Scanner.feedFrom, renderEscape]
      by_cases hc : c = '['.toUInt8
      · simp [renderer, Mode.next, Mode.act, hc, ← hnumber]
      · simp [renderer, Mode.next, Mode.act, hc, ← htext]
    · intro r arg
      rw [Scanner.feedFrom, renderNumber]
      by_cases hc : isDigit c = true
      · simp [renderer, Mode.next, Mode.act, hc, ← hnumber]
      · simp [renderer, Mode.next, Mode.act, hc, ← htext]

theorem renderAll_eq_feedAll (r : Render) (chunks : List (List UInt8)) :
    renderAll r chunks = renderer.feedAll r chunks := by
  have hrender : render = renderer.feed := by
    funext r buf
    exact ((feedFrom_renderer buf).1 r).symm
  rw [renderAll, Scanner.feedAll, hrender]

/-- The prefix of a stream ends inside an escape sequence, when the stream is cut by a rule. -/
def InsideEscape (cut : List UInt8 → Bool) (u : List UInt8) : Prop := renderer.Inside cut u

/-- A newline is text outside of an escape sequence and dropped inside. -/
theorem newline_separates {m : Mode} (hm : m ≠ .text) (r : Render) :
    Mode.act .text r '\n'.toUInt8 ≠ m.act r '\n'.toUInt8 := by
  have htext : (Mode.act .text r '\n'.toUInt8).emitted = r.emitted ++ [r.string] := by
    rw [Mode.act, if_pos (by decide), renderPutc, if_pos rfl]
  have hinside : (m.act r '\n'.toUInt8).emitted = r.emitted := by
    cases m with
    | text => exact absurd rfl hm
    | escape => rfl
    | number arg =>
      rw [Mode.act, if_neg (by decide), renderFinal, if_neg (by decide), if_neg (by decide)]
  intro heq
  rw [heq, hinside] at htext
  simp at htext

/-- Two ways to split a stream give the same lines and the same `struct render` if they cut
alike inside of escape sequences; and where two rules do not, some stream tells them apart. -/
theorem renderAll_split (chunks₁ chunks₂ : List (List UInt8)) (cut₁ cut₂ : List UInt8 → Bool) :
    ((∀ c ∈ chunks₁, c ≠ []) → (∀ c ∈ chunks₂, c ≠ []) → chunks₁.flatten = chunks₂.flatten →
      (∀ u v, chunks₁.flatten = u ++ v → v ≠ [] → InsideEscape (cutsOf chunks₁) u →
        cutsOf chunks₁ u = cutsOf chunks₂ u) →
      renderAll zeroed chunks₁ = renderAll zeroed chunks₂) ∧
    ((∀ stream, renderAll zeroed (chunksOf cut₁ [] [] stream) =
        renderAll zeroed (chunksOf cut₂ [] [] stream)) ↔
      ∀ u, InsideEscape cut₁ u → cut₁ u = cut₂ u) := by
  constructor
  · intro h₁ h₂ hstream hcuts
    have hreads := Scanner.feedReads_congr zeroed hcuts
    rw [Scanner.feedReads, Scanner.feedReads, chunksOf_cutsOf h₁, hstream, chunksOf_cutsOf h₂] at hreads
    rw [renderAll_eq_feedAll, renderAll_eq_feedAll, hreads]
  · simp only [renderAll_eq_feedAll]
    refine Scanner.feedReads_iff ?_ zeroed
    intro m hm
    exact ⟨'\n'.toUInt8, newline_separates hm⟩

/-- Text may be cut anywhere, an escape sequence in the same place. -/
theorem renderAll_split_inEscape :
    renderAll zeroed [[0x61], [0x62, 0x1b], [0x5b, 0x4b], [0x0a]] =
      renderAll zeroed [[0x61, 0x62, 0x1b], [0x5b, 0x4b, 0x0a]] := by
  refine (renderAll_split _ _ (fun _ => false) (fun _ => false)).1 (by decide) (by decide) rfl ?_
  have hprefixes : ∀ n : Fin 6,
      let u := [[0x61], [0x62, 0x1b], [0x5b, 0x4b], [0x0a]].flatten.take n
      renderer.modeAt (cutsOf [[0x61], [0x62, 0x1b], [0x5b, 0x4b], [0x0a]]) [] renderer.idle u ≠ renderer.idle →
        cutsOf [[0x61], [0x62, 0x1b], [0x5b, 0x4b], [0x0a]] u =
          cutsOf [[0x61, 0x62, 0x1b], [0x5b, 0x4b, 0x0a]] u := by
    decide
  intro u v huv hv hinside
  have hu := congrArg (List.take u.length) huv
  have hlength := congrArg List.length huv
  rw [List.take_left] at hu
  rw [List.length_append] at hlength
  have hpos := List.length_pos_iff.mpr hv
  have hlt : u.length < 6 := by
    have hsix : [[0x61], [0x62, 0x1b], [0x5b, 0x4b], [(0x0a : UInt8)]].flatten.length = 6 := rfl
    omega
  have hat := hprefixes ⟨u.length, hlt⟩
  rw [hu] at hat
  exact hat hinside

/-- An escape sequence that a read ends in comes out as text, and stays in the line. -/
theorem renderAll_depends_on_split :
    (renderAll zeroed [[0x1b], [0x5b, 0x4b]]).len = 2 ∧ (renderAll zeroed [[0x1b, 0x5b, 0x4b]]).len = 0 ∧
    (renderAll zeroed [[0x1b], [0x5b, 0x4b, 0x0a]]).emitted = [[0x5b, 0x4b]] ∧
    (renderAll zeroed [[0x1b, 0x5b, 0x4b, 0x0a]]).emitted = [[]] := by
  decide

end Monitor
end KtestCi
