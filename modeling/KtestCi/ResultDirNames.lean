import KtestCi.EnvEncoding
import KtestCi.ResultKeys
import KtestCi.SupervisorOps

/-!
# The names of result directories, from both ends

The daemon creates and pulls the directory of a subtest under its result key; the
supervisor, which is given only the basename, makes the name up from the start marker on
the console. The two agree on every subtest without white space.

A key joins kernel and environment with `@`, which both may contain, after the `/` of the
kernel have become `_`. Two configurations share a directory when their kernels differ in
nothing but these characters, or when the environment of one spells the end of the other's
kernel.
-/

namespace KtestCi

theorem subtestResultKey_nil_nil (test subtest : Text) :
    subtestResultKey test subtest [] [] = subtestFullName test subtest := by
  simp [subtestResultKey, resultBasename, testNameWithKernel, subtestFullName, Text.replaceChar]

namespace Supervisor

/-- The directory in which `test_file_open` opens the files of a test. -/
def testDirName (testBasename test : Text) : Text := testBasename ++ '.' :: test

/-- The options of a supervisor that was given a basename with `-b`, over the directories
that are there. -/
def Options.withBasename (o : Options) (testBasename : Text) (dirs : Text → Bool) : Options :=
  { o with prepared := fun test => dirs (testDirName testBasename test) }

/-- A line that `run_tests` prints before a subtest, with its line terminators. -/
structure StartMarker (l : ConsoleLine) (subtest : Text) : Prop where
  no_space : ∀ c ∈ subtest, c.isWhitespace = false
  raw : ∃ eol, (∀ c ∈ eol, c = '\n' ∨ c = '\r') ∧ l.raw = "========= TEST   ".toList ++ subtest ++ eol

namespace StartMarker

variable {l : ConsoleLine} {subtest : Text}

theorem strim_raw (h : StartMarker l subtest) :
    strim l.raw = "========= TEST   ".toList ++ subtest := by
  obtain ⟨eol, heol, hraw⟩ := h.raw
  have hdrop : ∀ c ∈ eol.reverse, (decide (c = '\n') || decide (c = '\r')) = true := by
    intro c hc
    simpa using heol c (List.mem_reverse.mp hc)
  rw [strim, hraw, List.rdropWhile, List.reverse_append, List.dropWhile_append_of_pos hdrop,
    ← List.rdropWhile]
  cases hlast : subtest.reverse with
  | nil =>
    obtain rfl := List.reverse_eq_nil_iff.mp hlast
    decide
  | cons c cs =>
    obtain rfl : subtest = cs.reverse ++ [c] := by
      rw [← List.reverse_reverse subtest, hlast, List.reverse_cons]
    have hc := h.no_space c (by simp)
    rw [← List.append_assoc, List.rdropWhile_concat_neg]
    rintro heq
    rcases (by simpa using heq : c = '\n' ∨ c = '\r') with rfl | rfl
    · exact absurd hc (by decide)
    · exact absurd hc (by decide)

theorem starting (h : StartMarker l subtest) : l.starting = some (subtest.replaceChar '/' '.') := by
  rw [← l.testIsStarting_strim, h.strim_raw, testIsStarting, strStartsWith, if_pos]
  · rw [List.drop_left]
    rfl
  · simp

theorem stops_eq_none (h : StartMarker l subtest) (o : Options) : stops o (strim l.raw) = none := by
  have hspace : ' ' ∉ subtest := by
    intro hmem
    exact absurd (h.no_space ' ' hmem) (by decide)
  have htimeout : ¬ "FAILED TIMEOUT".toList <:+: "========= TEST   ".toList ++ subtest := by
    have hwords : "FAILED TIMEOUT".toList = "FAILED".toList ++ ' ' :: "TIMEOUT".toList := by decide
    have hline : "========= TEST   ".toList ++ subtest = "========= TEST  ".toList ++ ' ' :: subtest := by
      simp
    rw [hwords, hline, Text.two_words_infix_append_cons_iff (by decide) (by decide)]
    rintro (hleft | hright | ⟨hsuffix, -⟩)
    · revert hleft
      decide
    · exact hspace (hright.subset (by decide))
    · revert hsuffix
      decide
  have hfailed : strStartsWith ("========= TEST   ".toList ++ subtest) "TEST FAILED".toList = none := by
    simp [strStartsWith]
  have hsuccess : strStartsWith ("========= TEST   ".toList ++ subtest) "TEST SUCCESS".toList = none := by
    simp [strStartsWith]
  have hcontains : Text.contains ("========= TEST   ".toList ++ subtest) "FAILED TIMEOUT".toList = false := by
    rw [Text.contains, decide_eq_false htimeout]
  rw [h.strim_raw, stops, hfailed, hcontains, hsuccess]
  simp

end StartMarker

variable {o : Options} {files : Files} {l : ConsoleLine}

theorem prepared_of_processLine {s s' : State} (h : processLine o s l = .next s') :
    l.Prepared o ∧ stops o (strim l.raw) = none := by
  rw [processLine_eq_runOps] at h
  have hprep : l.Prepared o := by
    by_contra hnot
    simp [runOps_bodyOps_of_not_prepared hnot] at h
  cases hops : runOps (bodyOps o l) s with
  | none => simp [hops] at h
  | some s₁ =>
    rw [hops, Option.elim_some, afterBody] at h
    cases hstop : stops o (strim l.raw) with
    | none => exact ⟨hprep, rfl⟩
    | some ret => simp [hstop] at h

theorem prepared_of_runLines {lines : List ConsoleLine} {s s' : State}
    (h : runLines o s lines = .next s') : ∀ l ∈ lines, l.Prepared o ∧ stops o (strim l.raw) = none := by
  induction lines generalizing s with
  | nil => simp
  | cons l lines ih =>
    cases hl : processLine o s l with
    | next s₁ =>
      simp only [runLines, hl] at h
      exact List.forall_mem_cons.mpr ⟨prepared_of_processLine hl, ih h⟩
    | leaves s₁ ret => simp [runLines, hl] at h
    | dies => simp [runLines, hl] at h

/-- The files of the current test have just been opened in the directory `dir`. -/
structure OpensDir (testBasename dir : Text) (l : ConsoleLine) (s : State) : Prop where
  name : testDirName testBasename s.testName = dir
  status : s.files s.testName .status = some "TEST FAILED\n".toList
  log : ∃ log, s.files s.testName .log = some log ∧ LogOf [l] log

theorem runLines_startMarker {pre : List ConsoleLine} {s : State} {subtest testBasename : Text}
    (h : StartMarker l subtest) (hrun : runLines o (initial o files) pre = .next s)
    (hprep : o.prepared (subtest.replaceChar '/' '.') = true) :
    ∃ s', runLines o (initial o files) (pre ++ [l]) = .next s' ∧
      OpensDir testBasename (testDirName testBasename (subtest.replaceChar '/' '.')) l s' := by
  have hpre := prepared_of_runLines hrun
  obtain ⟨s₀, hrun₀, hrec₀⟩ := runLines_records o files pre (fun l' hl' => (hpre l' hl').1)
    (fun l' hl' => (hpre l' hl').2)
  have hstarted : ∀ t, (∃ l' ∈ pre, l'.starting = some t) → o.prepared t = true := by
    rintro t ⟨l', hl', ht⟩
    exact (hpre l' hl').1 t ht
  obtain ⟨s', hproc, hrec⟩ := hrec₀.step_start hstarted h.starting hprep (h.stops_eq_none o)
  obtain ⟨b, seg, rest, hlast, ⟨hstatus, hlog⟩, hopen⟩ := hrec.runs _ ⟨l, by simp, h.starting⟩
  have hafter : seg ++ rest = [] := hlast.lines_after_eq (LastRun.start pre h.starting)
  obtain ⟨rfl, rfl⟩ := List.append_eq_nil_iff.mp hafter
  obtain ⟨pre', hpre'⟩ := hlast.split
  obtain rfl : l = b := by simpa using (List.append_inj' hpre' rfl).2
  have hname : s'.testName = subtest.replaceChar '/' '.' := by
    rw [State.testName, hrec.current _ (hopen.mpr ⟨rfl, by simp⟩), Option.getD_some]
  refine ⟨s', ?_, by rw [hname], ?_, ?_⟩
  · rw [runLines_concat, hrun₀]
    exact hproc
  · rw [hname]
    exact hstatus
  · rw [hname]
    exact hlog

/-- On a start marker the supervisor opens the directory named by the result key of the
subtest, and that one only: without it the supervisor dies. The key of a run without kernel
and environment is the full name. -/
theorem supervisorDir_eq_subtestResultKey (o : Options) (dirs : Text → Bool) (files : Files)
    (pre : List ConsoleLine) (l : ConsoleLine) (s : State) (test subtest kernel env : Text)
    (h : StartMarker l subtest)
    (hrun : runLines (o.withBasename (resultBasename test kernel env) dirs)
      (initial (o.withBasename (resultBasename test kernel env) dirs) files) pre = .next s)
    (test' subtest' : Text) :
    (dirs (subtestResultKey test subtest kernel env) = true →
      ∃ s', runLines (o.withBasename (resultBasename test kernel env) dirs)
          (initial (o.withBasename (resultBasename test kernel env) dirs) files) (pre ++ [l]) = .next s' ∧
        OpensDir (resultBasename test kernel env) (subtestResultKey test subtest kernel env) l s') ∧
    (dirs (subtestResultKey test subtest kernel env) = false →
      runLines (o.withBasename (resultBasename test kernel env) dirs)
        (initial (o.withBasename (resultBasename test kernel env) dirs) files) (pre ++ [l]) = .dies) ∧
    subtestResultKey test' subtest' [] [] = subtestFullName test' subtest' := by
  have hkey : testDirName (resultBasename test kernel env) (subtest.replaceChar '/' '.') =
      subtestResultKey test subtest kernel env := rfl
  refine ⟨fun hdir => ?_, fun hdir => ?_, subtestResultKey_nil_nil test' subtest'⟩
  · rw [← hkey]
    refine runLines_startMarker h hrun ?_
    simpa [Options.withBasename, hkey] using hdir
  · have hnot : ¬ l.Prepared (o.withBasename (resultBasename test kernel env) dirs) := by
      intro hprep
      have htrue := hprep _ h.starting
      simp only [Options.withBasename, hkey, hdir, Bool.false_eq_true] at htrue
    rw [runLines_concat, hrun]
    simp only [processLine_eq_runOps, runOps_bodyOps_of_not_prepared hnot, Option.elim_none]

/-- The marker of a subtest of xfstests, at the start of a run. -/
theorem supervisorDir_of_xfstests :
    ∃ s', runLines (Options.withBasename ⟨true, true, 1200, fun _ => false⟩
        (resultBasename "fs/xfs.ktest".toList "debian/forky".toList "A=1".toList)
        (fun dir => dir = "fs.xfs@debian_forky@A=1.generic.001".toList))
      (initial ⟨true, true, 1200, fun _ => false⟩ (fun _ _ => none))
      [⟨"========= TEST   generic/001\r\n".toList, 1, 1, false, [], []⟩] = .next s' ∧
      OpensDir (resultBasename "fs/xfs.ktest".toList "debian/forky".toList "A=1".toList)
        "fs.xfs@debian_forky@A=1.generic.001".toList
        ⟨"========= TEST   generic/001\r\n".toList, 1, 1, false, [], []⟩ s' := by
  have hmarker : StartMarker ⟨"========= TEST   generic/001\r\n".toList, 1, 1, false, [], []⟩
      "generic/001".toList := by
    refine ⟨?_, "\r\n".toList, by simp, by decide⟩
    intro c hc
    have hall : "generic/001".toList.all (fun c => !c.isWhitespace) = true := by decide
    simpa using List.all_eq_true.mp hall c hc
  have hkey : subtestResultKey "fs/xfs.ktest".toList "generic/001".toList "debian/forky".toList
      "A=1".toList = "fs.xfs@debian_forky@A=1.generic.001".toList := by
    decide +kernel
  have hopens := (supervisorDir_eq_subtestResultKey ⟨true, true, 1200, fun _ => false⟩
    (fun dir => dir = "fs.xfs@debian_forky@A=1.generic.001".toList) (fun _ _ => none) [] _ _
    "fs/xfs.ktest".toList "generic/001".toList "debian/forky".toList "A=1".toList hmarker rfl
    [] []).1
  rw [hkey] at hopens
  exact hopens (by simp)

end Supervisor

/-- An optional part of a result key. -/
def atPart (t : Text) : Text := if t.isEmpty then [] else '@' :: t

theorem resultBasename_eq (test kernel env : Text) :
    resultBasename test kernel env = (test.replace ".ktest".toList []).replaceChar '/' '.' ++
      (atPart (sanitizeKernel kernel) ++ atPart env) := by
  have hkernel : (sanitizeKernel kernel).isEmpty = kernel.isEmpty := by
    cases kernel <;> rfl
  unfold resultBasename testNameWithKernel atPart
  rw [hkernel]
  split_ifs <;> simp

/-- The environment of the first configuration, read after its own kernel, spells the rest of
the other's kernel and then the other's environment. -/
structure Absorbs (kernel env kernel' env' : Text) : Prop where
  kernel_ne_nil : kernel' ≠ []
  env_ne_nil : env ≠ []
  spells : ∃ rest, env = rest ++ atPart env' ∧
    sanitizeKernel kernel' = if kernel = [] then rest else sanitizeKernel kernel ++ '@' :: rest

def SharesDir (kernel env kernel' env' : Text) : Prop :=
  (sanitizeKernel kernel = sanitizeKernel kernel' ∧ env = env') ∨
    Absorbs kernel env kernel' env' ∨ Absorbs kernel' env' kernel env

theorem sanitizeKernel_eq_nil_iff (kernel : Text) : sanitizeKernel kernel = [] ↔ kernel = [] := by
  simp [sanitizeKernel, Text.replaceChar]

@[simp] theorem atPart_nil : atPart [] = [] := rfl

theorem atPart_of_ne_nil {t : Text} (h : t ≠ []) : atPart t = '@' :: t := by
  simp [atPart, h]

theorem atPart_injective {t t' : Text} (h : atPart t = atPart t') : t = t' := by
  unfold atPart at h
  cases t <;> cases t' <;> simp_all

theorem sharesDir_of_cut {kernel env kernel' env' cut : Text}
    (hkernel : atPart (sanitizeKernel kernel') = atPart (sanitizeKernel kernel) ++ cut)
    (henv : atPart env = cut ++ atPart env') :
    (sanitizeKernel kernel = sanitizeKernel kernel' ∧ env = env') ∨
      Absorbs kernel env kernel' env' := by
  cases cut with
  | nil =>
    rw [List.append_nil] at hkernel
    rw [List.nil_append] at henv
    exact .inl ⟨(atPart_injective hkernel).symm, atPart_injective henv⟩
  | cons c rest =>
    have hne : env ≠ [] := by
      rintro rfl
      simp at henv
    have hne' : sanitizeKernel kernel' ≠ [] := by
      intro hnil
      simp [hnil] at hkernel
    rw [atPart_of_ne_nil hne] at henv
    rw [atPart_of_ne_nil hne'] at hkernel
    obtain ⟨rfl, hrest⟩ := List.cons.inj henv
    refine .inr ⟨fun hnil => hne' ((sanitizeKernel_eq_nil_iff _).mpr hnil), hne, rest, hrest, ?_⟩
    by_cases hk : kernel = []
    · rw [(sanitizeKernel_eq_nil_iff _).mpr hk, atPart_nil] at hkernel
      rw [if_pos hk]
      exact (List.cons.inj hkernel).2
    · rw [atPart_of_ne_nil (mt (sanitizeKernel_eq_nil_iff _).mp hk)] at hkernel
      rw [if_neg hk]
      exact (List.cons.inj hkernel).2

theorem Absorbs.atPart_eq {kernel env kernel' env' : Text} (h : Absorbs kernel env kernel' env') :
    atPart (sanitizeKernel kernel) ++ atPart env = atPart (sanitizeKernel kernel') ++ atPart env' := by
  obtain ⟨hkernel, hne, rest, henv, hspells⟩ := h
  have hrest : atPart env = '@' :: rest ++ atPart env' := by
    rw [atPart_of_ne_nil hne, List.cons_append, ← henv]
  have hkernel' : atPart (sanitizeKernel kernel') = '@' :: sanitizeKernel kernel' :=
    atPart_of_ne_nil (mt (sanitizeKernel_eq_nil_iff _).mp hkernel)
  rw [hrest, hkernel', hspells]
  by_cases hk : kernel = []
  · rw [if_pos hk, (sanitizeKernel_eq_nil_iff _).mpr hk, atPart_nil, List.nil_append]
  · rw [if_neg hk, atPart_of_ne_nil (mt (sanitizeKernel_eq_nil_iff _).mp hk)]
    simp

/-- Two configurations of a subtest have different directories unless one of the two ways of
sharing applies. -/
theorem subtestResultKey_ne_iff (test subtest kernel env kernel' env' : Text) :
    subtestResultKey test subtest kernel env ≠ subtestResultKey test subtest kernel' env' ↔
      ¬ SharesDir kernel env kernel' env' := by
  have hkeys : subtestResultKey test subtest kernel env = subtestResultKey test subtest kernel' env' ↔
      atPart (sanitizeKernel kernel) ++ atPart env = atPart (sanitizeKernel kernel') ++ atPart env' := by
    rw [subtestResultKey, subtestResultKey, List.append_left_inj, resultBasename_eq, resultBasename_eq,
      List.append_right_inj]
  rw [ne_eq, hkeys, not_iff_not]
  constructor
  · intro h
    rcases List.append_eq_append_iff.mp h with ⟨cut, hkernel, henv⟩ | ⟨cut, hkernel, henv⟩
    · exact (sharesDir_of_cut hkernel henv).imp_right .inl
    · rcases sharesDir_of_cut hkernel henv with ⟨hk, he⟩ | habsorbs
      · exact .inl ⟨hk.symm, he.symm⟩
      · exact .inr (.inr habsorbs)
  · rintro (⟨hk, rfl⟩ | h | h)
    · rw [hk]
    · exact h.atPart_eq
    · exact h.atPart_eq.symm

/-- Two kernels that differ in `/` and `_` only. -/
theorem configurations_share_a_directory :
    ¬ ∀ (test subtest kernel env kernel' env' : Text) (vars vars' : TextMap Text),
      encodeEnv vars = some env → encodeEnv vars' = some env' → (kernel, env) ≠ (kernel', env') →
        subtestResultKey test subtest kernel env ≠ subtestResultKey test subtest kernel' env' := by
  intro h
  refine h "fs.ktest".toList "quota".toList "debian/forky".toList [] "debian_forky".toList []
    ∅ ∅ rfl rfl (by decide) ?_
  decide +kernel

end KtestCi
