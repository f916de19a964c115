import KtestCi.TextSearch

/-!
# Lines of a text that is read piece by piece

A reader of lines knows the lines that have ended in what it has read so far, and the start
of one more. Reading more keeps the lines that have ended; a text in which every line ends
has exactly the lines that it was put together from. So has a list of lines with newlines
between them, if none of the lines has one itself.
-/

namespace KtestCi
namespace Text

/-- The lines that have ended; `cur` is the start of the current one. -/
def endedFrom (cur : Text) : Text → List Text
  | [] => []
  | c :: cs => if c = '\n' then cur :: endedFrom [] cs else endedFrom (cur ++ [c]) cs

/-- What has been read of a line that has not ended. -/
def openFrom (cur : Text) : Text → Text
  | [] => cur
  | c :: cs => if c = '\n' then openFrom [] cs else openFrom (cur ++ [c]) cs

/-- The lines of a text that have ended. -/
def endedLines (t : Text) : List Text := endedFrom [] t

/-- The lines of a text at its end, where a line need not have ended. -/
def lines (t : Text) : List Text :=
  if (openFrom [] t).isEmpty then endedLines t else endedLines t ++ [openFrom [] t]

def unlines (ls : List Text) : Text := ls.flatMap (fun l => l ++ ['\n'])

theorem endedFrom_append (cur t t' : Text) :
    endedFrom cur (t ++ t') = endedFrom cur t ++ endedFrom (openFrom cur t) t' := by
  induction t generalizing cur with
  | nil => rfl
  | cons c t ih =>
    by_cases hc : c = '\n' <;> simp [endedFrom, openFrom, hc, ih]

theorem endedLines_mono {t t' : Text} (h : t <+: t') : endedLines t <+: endedLines t' := by
  obtain ⟨rest, rfl⟩ := h
  exact ⟨_, (endedFrom_append [] t rest).symm⟩

theorem endedFrom_line {l : Text} (hl : '\n' ∉ l) (cur t : Text) :
    endedFrom cur (l ++ '\n' :: t) = (cur ++ l) :: endedFrom [] t ∧
      openFrom cur (l ++ '\n' :: t) = openFrom [] t := by
  induction l generalizing cur with
  | nil => simp [endedFrom, openFrom]
  | cons c l ih =>
    simp only [List.mem_cons, not_or] at hl
    have hc : c ≠ '\n' := Ne.symm hl.1
    have hrest := ih hl.2 (cur ++ [c])
    simpa [endedFrom, openFrom, hc] using hrest

theorem endedLines_unlines {ls : List Text} (hls : ∀ l ∈ ls, '\n' ∉ l) :
    endedLines (unlines ls) = ls ∧ openFrom [] (unlines ls) = [] := by
  induction ls with
  | nil => exact ⟨rfl, rfl⟩
  | cons l ls ih =>
    rw [List.forall_mem_cons] at hls
    have hsplit : unlines (l :: ls) = l ++ '\n' :: unlines ls := by simp [unlines]
    obtain ⟨hended, hopen⟩ := endedFrom_line hls.1 [] (unlines ls)
    obtain ⟨ih₁, ih₂⟩ := ih hls.2
    rw [hsplit, endedLines, hended, hopen]
    exact ⟨congrArg (l :: ·) ih₁, ih₂⟩

theorem lines_unlines {ls : List Text} (hls : ∀ l ∈ ls, '\n' ∉ l) : lines (unlines ls) = ls := by
  obtain ⟨hended, hopen⟩ := endedLines_unlines hls
  simp [lines, hended, hopen]

theorem newline_notMem_endedFrom (cur t : Text) (hcur : '\n' ∉ cur) :
    (∀ l ∈ endedFrom cur t, '\n' ∉ l) ∧ '\n' ∉ openFrom cur t := by
  induction t generalizing cur with
  | nil => exact ⟨by simp [endedFrom], hcur⟩
  | cons c t ih =>
    by_cases hc : c = '\n'
    · obtain ⟨h₁, h₂⟩ := ih [] (by simp)
      simp only [endedFrom, openFrom, hc, if_true]
      exact ⟨List.forall_mem_cons.mpr ⟨hcur, h₁⟩, h₂⟩
    · obtain ⟨h₁, h₂⟩ := ih (cur ++ [c]) (by simp [hcur, Ne.symm hc])
      simp only [endedFrom, openFrom, hc, if_false]
      exact ⟨h₁, h₂⟩

theorem newline_notMem_lines {t l : Text} (h : l ∈ lines t) : '\n' ∉ l := by
  obtain ⟨hended, hopen⟩ := newline_notMem_endedFrom [] t (by simp)
  unfold lines at h
  split_ifs at h
  · exact hended l h
  · rcases List.mem_append.mp h with h | h
    · exact hended l h
    · rw [List.mem_singleton.mp h]
      exact hopen

def joinLines (ls : List Text) : Text := ['\n'].intercalate ls

/-- Append a line, behind a newline unless there is nothing in front of it. -/
def pushLine (t line : Text) : Text := if t.isEmpty then line else t ++ '\n' :: line

theorem joinLines_concat {ls : List Text} (hne : ls ≠ []) (l : Text) :
    joinLines (ls ++ [l]) = joinLines ls ++ '\n' :: l := by
  unfold joinLines
  induction ls with
  | nil => exact absurd rfl hne
  | cons a ls ih =>
    cases ls with
    | nil => simp [List.intercalate_cons_cons]
    | cons b ls =>
      rw [List.cons_append, List.intercalate_cons_of_ne_nil (by simp), ih (List.cons_ne_nil b ls),
        List.intercalate_cons_of_ne_nil (List.cons_ne_nil b ls)]
      simp

theorem pushLine_joinLines {a : Text} (ha : a ≠ []) (ls : List Text) (l : Text) :
    pushLine (joinLines (a :: ls)) l = joinLines (a :: ls ++ [l]) := by
  have hsome : (joinLines (a :: ls)).isEmpty = false := by
    cases a with
    | nil => exact absurd rfl ha
    | cons c a =>
      unfold joinLines
      cases ls with
      | nil => simp
      | cons b ls => simp [List.intercalate_cons_cons]
  rw [pushLine, hsome, if_neg Bool.false_ne_true, joinLines_concat (List.cons_ne_nil a ls)]

theorem newline_notMem_splitOn {t l : Text} (h : l ∈ t.splitOn '\n') : '\n' ∉ l := by
  rw [List.splitOn_eq_splitOnP] at h
  induction t generalizing l with
  | nil =>
    rw [List.splitOnP_nil, List.mem_singleton] at h
    simp [h]
  | cons c t ih =>
    rw [List.splitOnP_cons_eq_if_modifyHead] at h
    split_ifs at h with hc
    · rcases List.mem_cons.mp h with rfl | h
      · simp
      · exact ih h
    · cases hlines : t.splitOnP (fun x => x == '\n') with
      | nil => exact absurd hlines (List.splitOnP_ne_nil _ t)
      | cons head rest =>
        rw [hlines] at ih
        rw [hlines, List.modifyHead_cons] at h
        rcases List.mem_cons.mp h with rfl | h
        · have hhead := ih List.mem_cons_self
          have hne : '\n' ≠ c := fun heq => hc (by simp [← heq])
          simp [hhead, hne]
        · exact ih (List.mem_cons_of_mem head h)

/-- The lines of the elements of a list are found again, each at its place, exactly if none of
them has a newline. -/
theorem getElem?_splitOn_joinLines_iff {α : Type*} {as : List α} (hne : as ≠ []) (line : ℕ → α → Text) :
    (∀ (n : ℕ) (a : α), as[n]? = some a →
      ((joinLines (as.mapIdx line)).splitOn '\n')[n]? = some (line n a)) ↔
      ∀ (n : ℕ) (a : α), as[n]? = some a → '\n' ∉ line n a := by
  constructor
  · intro h n a ha
    exact newline_notMem_splitOn (List.mem_of_getElem? (h n a ha))
  · intro h n a ha
    have hlines : ∀ l ∈ as.mapIdx line, '\n' ∉ l := by
      intro l hl
      obtain ⟨m, hm⟩ := List.mem_iff_getElem?.mp hl
      rw [List.getElem?_mapIdx, Option.map_eq_some_iff] at hm
      obtain ⟨b, hb, rfl⟩ := hm
      exact h m b hb
    rw [joinLines, List.splitOn_intercalate '\n' hlines (by simpa using hne), List.getElem?_mapIdx, ha,
      Option.map_some]

end Text
end KtestCi
