import KtestCi.TextSearch

/-!
# Words of a shell command

The shell cuts a command at blanks. A text without a special character stays one word, is
not expanded, and ends no command. A word in front of a command that consists of a name, an
`=` and a value is an assignment.
-/

namespace KtestCi
namespace Text

def isShellBlank (c : Char) : Bool := c == ' ' || c == '\t' || c == '\n'

def isShellMeta (c : Char) : Bool := isShellBlank c || ";&|<>()$`\\\"'*?[#~".toList.contains c

/-- The words of a text, as the shell splits it. -/
def shellWords (s : Text) : List Text :=
  (s.splitOnP (fun c => c == ' ' || c == '\t' || c == '\n')).filter (fun w => !w.isEmpty)

/-- A text that the shell takes as it is. -/
def ShellPlain (t : Text) : Prop := ∀ c ∈ t, isShellMeta c = false

-- Over the characters of the text: the instance that goes over all of `Char` does not evaluate.
instance (t : Text) : Decidable (ShellPlain t) := List.decidableBAll _ t

structure ShellWord (w : Text) : Prop where
  nonempty : w ≠ []
  noBlank : ∀ c ∈ w, isShellBlank c = false

/-- A name that the shell can assign to. -/
def isShellName : Text → Bool
  | [] => false
  | c :: cs => (c.isAlpha || c = '_') && cs.all (fun c => c.isAlphanum || c = '_')

/-- A word that the shell takes for an assignment: what stands before its first `=` is a name. -/
def isAssignment (w : Text) : Bool := w.contains ['='] && isShellName (w.takeWhile (fun c => c != '='))

theorem isShellBlank_of_plain {t : Text} (h : ShellPlain t) : ∀ c ∈ t, isShellBlank c = false := by
  intro c hc
  have hmeta := h c hc
  simp only [isShellMeta, Bool.or_eq_false_iff] at hmeta
  exact hmeta.1

theorem shellWord_of_all {w : Text} (hne : w ≠ []) (hall : w.all (fun c => !isShellBlank c) = true) :
    ShellWord w := by
  refine ⟨hne, ?_⟩
  intro c hc
  simpa using List.all_eq_true.mp hall c hc

@[simp] theorem shellPlain_nil : ShellPlain [] := by simp [ShellPlain]

@[simp] theorem shellPlain_append {t t' : Text} :
    ShellPlain (t ++ t') ↔ ShellPlain t ∧ ShellPlain t' := by
  simp only [ShellPlain, List.mem_append]
  constructor
  · exact fun h => ⟨fun c hc => h c (.inl hc), fun c hc => h c (.inr hc)⟩
  · rintro ⟨h, h'⟩ c (hc | hc)
    · exact h c hc
    · exact h' c hc

@[simp] theorem shellPlain_cons {c : Char} {t : Text} :
    ShellPlain (c :: t) ↔ isShellMeta c = false ∧ ShellPlain t := by
  simp [ShellPlain]

theorem shellPlain_intercalate {sep : Text} (hsep : ShellPlain sep) {ts : List Text}
    (h : ∀ t ∈ ts, ShellPlain t) : ShellPlain (sep.intercalate ts) := by
  induction ts with
  | nil => exact shellPlain_nil
  | cons t ts ih =>
    rw [List.forall_mem_cons] at h
    cases ts with
    | nil => simpa using h.1
    | cons t' ts =>
      rw [List.intercalate_cons_cons, shellPlain_append, shellPlain_append]
      exact ⟨⟨h.1, hsep⟩, ih h.2⟩

theorem shellPlain_iff_notMem {t : Text} : ShellPlain t ↔ ∀ c, isShellMeta c = true → c ∉ t := by
  constructor
  · intro h c hmeta hc
    rw [h c hc] at hmeta
    exact Bool.false_ne_true hmeta
  · exact fun h c hc => Bool.eq_false_iff.mpr (fun hmeta => h c hmeta hc)

theorem shellPlain_replaceChar {old new : Char} (hold : isShellMeta old = false)
    (hnew : isShellMeta new = false) (t : Text) : ShellPlain (t.replaceChar old new) ↔ ShellPlain t := by
  have hne : ∀ {a c : Char}, isShellMeta a = false → isShellMeta c = true → c ≠ a := by
    rintro a c ha hc rfl
    exact Bool.false_ne_true (ha.symm.trans hc)
  simp only [shellPlain_iff_notMem]
  exact forall₂_congr (fun c hc => not_congr (mem_replaceChar (hne hold hc) (hne hnew hc) t))

theorem shellPlain_replace {pat rep : Text} (hne : pat ≠ []) (hpat : ShellPlain pat)
    (hrep : ShellPlain rep) (t : Text) : ShellPlain (t.replace pat rep) ↔ ShellPlain t := by
  rw [shellPlain_iff_notMem] at hpat hrep
  simp only [shellPlain_iff_notMem]
  exact forall₂_congr (fun c hc => not_congr (mem_replace hne (hpat c hc) (hrep c hc) t))

theorem shellWords_eq (t : Text) :
    shellWords t = (t.splitOnP isShellBlank).filter (fun w => !w.isEmpty) := rfl

theorem shellWords_cons {w : Text} (hw : ShellWord w) {b : Char} (hb : isShellBlank b = true)
    (rest : Text) : shellWords (w ++ b :: rest) = w :: shellWords rest := by
  rw [shellWords_eq, List.splitOnP_append_cons_of_forall_mem hw.noBlank b hb,
    List.filter_cons_of_pos (by simpa using hw.nonempty), shellWords_eq]

theorem shellWords_singleton {w : Text} (hw : ShellWord w) : shellWords w = [w] := by
  rw [shellWords_eq, List.splitOnP_eq_singleton hw.noBlank,
    List.filter_cons_of_pos (by simpa using hw.nonempty), List.filter_nil]

theorem shellWords_flatMap_filter {b : Char} (hb : isShellBlank b = true) {ts : List Text}
    (h : ∀ t ∈ ts, ∀ c ∈ t, isShellBlank c = false) :
    shellWords (ts.flatMap (fun t => t ++ [b])) = ts.filter (fun t => !t.isEmpty) := by
  induction ts with
  | nil => rfl
  | cons t ts ih =>
    rw [List.forall_mem_cons] at h
    rw [List.flatMap_cons, List.append_assoc, List.singleton_append, shellWords_eq,
      List.splitOnP_append_cons_of_forall_mem h.1 b hb, List.filter_cons, List.filter_cons,
      ← shellWords_eq, ih h.2]

theorem shellWords_flatMap {words : List Text} (h : ∀ w ∈ words, ShellWord w) :
    shellWords (words.flatMap (fun w => w ++ [' '])) = words := by
  rw [shellWords_flatMap_filter (by decide) (fun w hw => (h w hw).noBlank), List.filter_eq_self]
  intro w hw
  simpa using (h w hw).nonempty

theorem shellWords_intercalate {words : List Text} (h : ∀ w ∈ words, ShellWord w) :
    shellWords ([' '].intercalate words) = words := by
  induction words with
  | nil => rfl
  | cons w words ih =>
    rw [List.forall_mem_cons] at h
    cases words with
    | nil => simpa using shellWords_singleton h.1
    | cons w' words =>
      rw [List.intercalate_cons_cons, List.append_assoc, List.singleton_append,
        shellWords_cons h.1 (by decide), ih h.2]

theorem shellWords_cons_blank {b : Char} (hb : isShellBlank b = true) (t : Text) :
    shellWords (b :: t) = shellWords t := by
  have hnil : ∀ c ∈ ([] : Text), isShellBlank c = false := by simp
  have h := List.splitOnP_append_cons_of_forall_mem hnil b hb t
  rw [shellWords_eq, ← List.nil_append (b :: t), h]
  rfl

theorem shellWords_flatMap_cons {words : List Text} (h : ∀ w ∈ words, ShellWord w) :
    shellWords (words.flatMap (fun w => ' ' :: w)) = words := by
  induction words with
  | nil => rfl
  | cons w words ih =>
    rw [List.forall_mem_cons] at h
    rw [List.flatMap_cons, List.cons_append, shellWords_cons_blank (by decide)]
    cases words with
    | nil => simpa using shellWords_singleton h.1
    | cons w' words =>
      have hrest := ih h.2
      rw [List.flatMap_cons, List.cons_append, shellWords_cons_blank (by decide)] at hrest
      rw [List.flatMap_cons, List.cons_append, shellWords_cons h.1 (by decide), hrest]

theorem isAlphanum_eq_false_of_meta {c : Char} (h : isShellMeta c = true) :
    c.isAlphanum = false ∧ c ≠ '_' := by
  have hmem : c ∈ " \t\n;&|<>()$`\\\"'*?[#~".toList := by
    simpa [isShellMeta, isShellBlank, or_assoc] using h
  have hall : " \t\n;&|<>()$`\\\"'*?[#~".toList.all (fun c => !c.isAlphanum && c != '_') = true := by
    decide
  simpa using List.all_eq_true.mp hall c hmem

theorem shellPlain_of_isShellName {t : Text} (h : isShellName t = true) : ShellPlain t := by
  have hchars : ∀ c ∈ t, c.isAlphanum = true ∨ c = '_' := by
    cases t with
    | nil => simp [isShellName] at h
    | cons a t =>
      simp only [isShellName, Bool.and_eq_true, Bool.or_eq_true, decide_eq_true_eq,
        List.all_eq_true] at h
      intro c hc
      rcases List.mem_cons.mp hc with rfl | hc
      · exact h.1.imp (fun halpha => by simp [Char.isAlphanum, halpha]) id
      · exact h.2 c hc
  intro c hc
  cases hmeta : isShellMeta c with
  | false => rfl
  | true =>
    obtain ⟨hnum, hscore⟩ := isAlphanum_eq_false_of_meta hmeta
    rcases hchars c hc with h | h
    · simp [hnum] at h
    · exact absurd h hscore

end Text
end KtestCi
