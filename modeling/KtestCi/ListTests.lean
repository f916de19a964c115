import KtestCi.ShellWords
import KtestCi.TextMatches
import Mathlib.Data.List.MinMax

/-!
# Listing the subtests of a test file

`list_tests` prints what `declare -F` says of the functions named `test_<n>`, with everything
up to the last `test_` of the line taken off. `run_test` puts `test_` in front of a name and
looks for the function. The two agree on the functions whose name has `test_` only once, with
something behind it.
-/

namespace KtestCi

structure ShellFunction where
  name : Text
  /-- The letters of its attributes, as in `declare -fx`. -/
  attributes : Text
  name_noBlank : ∀ c ∈ name, Text.isShellBlank c = false
  attributes_letters : ∀ c ∈ attributes, c.isAlpha = true

def ShellFunction.plain (name : Text) (h : name.all (fun c => !Text.isShellBlank c) = true) :
    ShellFunction where
  name := name
  attributes := []
  name_noBlank := by simpa using h
  attributes_letters := by simp

/-- The functions of a shell, in the order in which `declare -F` prints them. -/
structure FunctionTable where
  functions : List ShellFunction
  nodup : (functions.map ShellFunction.name).Nodup

def ShellFunction.declared (f : ShellFunction) : Text :=
  "declare -f".toList ++ f.attributes ++ ' ' :: f.name

/-- `sed -ne '/ test_/ s/.*test_// p'` on a line: the match is as long as it can be. -/
def stripTest (line : Text) : Option Text :=
  if line.contains " test_".toList then Text.afterLast "test_".toList line else none

namespace FunctionTable

def listTests (t : FunctionTable) : List Text :=
  t.functions.filterMap (fun f => stripTest f.declared)

/-- The listing as its readers take it: cut into words. -/
def subtests (t : FunctionTable) : List Text :=
  Text.shellWords (t.listTests.flatMap (fun n => n ++ ['\n']))

/-- The check of `run_test`: `type -t test_<n>` says `function`. -/
def Runs (t : FunctionTable) (n : Text) : Prop :=
  ∃ f ∈ t.functions, f.name = "test_".toList ++ n

end FunctionTable

theorem not_testPrefix_infix_declare {t : Text} (h : ∀ c ∈ t, c.isAlpha = true) :
    ¬ " test_".toList <:+: "declare -f".toList ++ t := by
  have hblank : ' ' ∉ "-f".toList ++ t := by
    intro hmem
    rcases List.mem_append.mp hmem with hmem | hmem
    · revert hmem
      decide
    · exact absurd (h _ hmem) (by decide)
  intro hin
  have hcut : [] ++ ' ' :: "test_".toList <:+: "declare".toList ++ ' ' :: ("-f".toList ++ t) := hin
  rcases (Text.two_words_infix_append_cons_iff List.not_mem_nil (by decide)).mp hcut with
    hleft | hright | ⟨-, hpre⟩
  · exact absurd hleft (by decide)
  · exact Text.not_infix_of_notMem (c := ' ') (by decide) hblank hright
  · exact absurd (List.cons_prefix_cons.mp hpre).1 (by decide)

/-- The address of the `sed` command picks the functions named `test_<n>`. -/
theorem declared_contains_iff (f : ShellFunction) :
    f.declared.contains " test_".toList = true ↔ "test_".toList <+: f.name := by
  have hname : ' ' ∉ f.name := fun hmem => absurd (f.name_noBlank _ hmem) (by decide)
  rw [Text.contains_eq_true]
  have hcut := Text.two_words_infix_append_cons_iff (u := []) (v := "test_".toList)
    (a := "declare -f".toList ++ f.attributes) (b := f.name) (c := ' ') List.not_mem_nil (by decide)
  constructor
  · intro hin
    rcases hcut.mp hin with hleft | hright | ⟨-, hpre⟩
    · exact absurd hleft (not_testPrefix_infix_declare f.attributes_letters)
    · exact absurd hright (Text.not_infix_of_notMem (c := ' ') (by decide) hname)
    · exact hpre
  · intro hpre
    exact hcut.mpr (.inr (.inr ⟨List.nil_suffix, hpre⟩))

theorem stripTest_eq_none {f : ShellFunction} (h : ¬ "test_".toList <+: f.name) :
    stripTest f.declared = none := by
  rw [stripTest, if_neg (fun hin => h ((declared_contains_iff f).mp hin))]

theorem stripTest_eq_afterLast {f : ShellFunction} (h : "test_".toList <+: f.name) :
    stripTest f.declared = Text.afterLast "test_".toList f.name := by
  rw [stripTest, if_pos ((declared_contains_iff f).mpr h)]
  cases hafter : Text.afterLast "test_".toList f.name with
  | none => exact absurd h.isInfix (Text.afterLast_eq_none_iff.mp hafter)
  | some s =>
    have hline := Text.afterLast_append hafter ("declare -f".toList ++ f.attributes ++ [' '])
    rwa [List.append_assoc _ [' '], List.singleton_append] at hline

theorem stripTest_spec {f : ShellFunction} {s : Text} (h : stripTest f.declared = some s) :
    ∃ a, f.name = a ++ ("test_".toList ++ s) := by
  by_cases hpre : "test_".toList <+: f.name
  · rw [stripTest_eq_afterLast hpre] at h
    exact Text.afterLast_spec h
  · rw [stripTest_eq_none hpre] at h
    cases h

theorem stripTest_eq_some {f : ShellFunction} {n : Text} (h : f.name = "test_".toList ++ n)
    (hn : ¬ "test_".toList <:+: n) : stripTest f.declared = some n := by
  have hlater : ¬ "test_".toList <:+: "est_".toList ++ n := by
    simpa [List.infix_cons_iff, List.cons_prefix_cons] using hn
  rw [stripTest_eq_afterLast ⟨n, h.symm⟩, h]
  exact Text.afterLast_eq_some hlater []

namespace FunctionTable

variable {t : FunctionTable}

theorem mem_listTests {s : Text} :
    s ∈ t.listTests ↔ ∃ f ∈ t.functions, stripTest f.declared = some s := by
  simp [listTests]

theorem noBlank_of_mem_listTests {s : Text} (h : s ∈ t.listTests) :
    ∀ c ∈ s, Text.isShellBlank c = false := by
  obtain ⟨f, -, hf⟩ := mem_listTests.mp h
  obtain ⟨a, ha⟩ := stripTest_spec hf
  intro c hc
  apply f.name_noBlank c
  simp [ha, hc]

theorem subtests_eq : t.subtests = t.listTests.filter (fun n => !n.isEmpty) :=
  Text.shellWords_flatMap_filter (by decide) (fun _ hn => noBlank_of_mem_listTests hn)

theorem mem_subtests {n : Text} : n ∈ t.subtests ↔ n ∈ t.listTests ∧ n ≠ [] := by
  simp [subtests_eq]

/-- Listing and running agree. -/
structure Agrees (t : FunctionTable) : Prop where
  /-- The names listed are those of the tests. -/
  listed : ∀ n, n ∈ t.subtests ↔ t.Runs n
  once : t.subtests.Nodup
  /-- A listed name passes the check of `run_test`. -/
  passes : ∀ n ∈ t.subtests, t.Runs n
  /-- A test is run under the name listed for it. -/
  reachable : ∀ f ∈ t.functions, "test_".toList <+: f.name →
    ∃ n ∈ t.subtests, f.name = "test_".toList ++ n

/-- Each test has something behind its `test_`, and no second one. -/
def OneTest (t : FunctionTable) : Prop :=
  ∀ f ∈ t.functions, ∀ n, f.name = "test_".toList ++ n → n ≠ [] ∧ ¬ "test_".toList <:+: n

theorem name_eq_of_stripTest (h : t.OneTest) {f : ShellFunction} (hf : f ∈ t.functions) {s : Text}
    (hs : stripTest f.declared = some s) : f.name = "test_".toList ++ s := by
  by_cases hpre : "test_".toList <+: f.name
  · obtain ⟨n, hn⟩ := hpre
    rw [stripTest_eq_some hn.symm (h f hf n hn.symm).2] at hs
    rw [← hn, Option.some.inj hs]
  · rw [stripTest_eq_none hpre] at hs
    cases hs

theorem mem_subtests_of_oneTest (h : t.OneTest) (n : Text) : n ∈ t.subtests ↔ t.Runs n := by
  rw [mem_subtests, mem_listTests]
  constructor
  · rintro ⟨⟨f, hf, hs⟩, -⟩
    exact ⟨f, hf, name_eq_of_stripTest h hf hs⟩
  · rintro ⟨f, hf, hname⟩
    obtain ⟨hne, honce⟩ := h f hf n hname
    exact ⟨⟨f, hf, stripTest_eq_some hname honce⟩, hne⟩

theorem nodup_subtests (h : t.OneTest) : t.subtests.Nodup := by
  rw [subtests_eq]
  apply List.Pairwise.filter
  rw [listTests, List.pairwise_filterMap]
  apply List.Pairwise.imp_of_mem _ (List.pairwise_map.mp t.nodup)
  rintro f g hf hg hne s hs s' hs' rfl
  exact hne (by rw [name_eq_of_stripTest h hf hs, name_eq_of_stripTest h hg hs'])

/-- A test with a second `test_` in its name is listed under less than the rest of it. -/
theorem stripTest_ne_some {f : ShellFunction} {n : Text} (h : f.name = "test_".toList ++ n)
    (htwice : "test_".toList <:+: n) : stripTest f.declared ≠ some n := by
  intro hs
  rw [stripTest_eq_afterLast ⟨n, h.symm⟩, h] at hs
  cases hafter : Text.afterLast "test_".toList n with
  | none => exact Text.afterLast_eq_none_iff.mp hafter htwice
  | some r =>
    rw [Text.afterLast_append hafter] at hs
    obtain rfl := Option.some.inj hs
    obtain ⟨a, ha⟩ := Text.afterLast_spec hafter
    have hlen := congrArg List.length ha
    simp at hlen
    omega

/-- If that rest is listed all the same, then for a test with a longer name. -/
theorem exists_longer_test (h : ∀ n, t.Runs n → n ∈ t.subtests) {f : ShellFunction}
    (hf : f ∈ t.functions) {n : Text} (hname : f.name = "test_".toList ++ n)
    (htwice : "test_".toList <:+: n) :
    ∃ g ∈ t.functions, (∃ m, g.name = "test_".toList ++ m ∧ "test_".toList <:+: m) ∧
      f.name.length < g.name.length := by
  obtain ⟨g, hg, hs⟩ := mem_listTests.mp (mem_subtests.mp (h n ⟨f, hf, hname⟩)).1
  by_cases hpre : "test_".toList <+: g.name
  · obtain ⟨m, hm⟩ := hpre
    by_cases htwice' : "test_".toList <:+: m
    · refine ⟨g, hg, ⟨m, hm.symm, htwice'⟩, ?_⟩
      -- the name of the other test ends with that of this one
      obtain ⟨a, ha⟩ := stripTest_spec hs
      cases a with
      | nil => exact absurd hs (stripTest_ne_some ha htwice)
      | cons c a =>
        rw [ha, hname, List.length_append, List.cons_append, List.length_cons, List.length_append,
          List.length_append]
        omega
    · rw [stripTest_eq_some hm.symm htwice'] at hs
      obtain rfl := Option.some.inj hs
      exact absurd htwice htwice'
  · rw [stripTest_eq_none hpre] at hs
    cases hs

theorem not_twice_of_listed (h : ∀ n, t.Runs n → n ∈ t.subtests) {f : ShellFunction}
    (hf : f ∈ t.functions) {n : Text} (hname : f.name = "test_".toList ++ n) :
    ¬ "test_".toList <:+: n := by
  classical
  intro htwice
  let twice : ShellFunction → Prop := fun g =>
    ∃ m, g.name = "test_".toList ++ m ∧ "test_".toList <:+: m
  have hmem : f ∈ t.functions.filter (fun g => decide (twice g)) := by
    simpa [hf] using show twice f from ⟨n, hname, htwice⟩
  cases hmax : (t.functions.filter (fun g => decide (twice g))).argmax (fun g => g.name.length) with
  | none =>
    rw [List.argmax_eq_none] at hmax
    rw [hmax] at hmem
    cases hmem
  | some g =>
    have hg := List.mem_filter.mp (List.argmax_mem hmax)
    obtain ⟨m, hm, htwice'⟩ := of_decide_eq_true hg.2
    obtain ⟨k, hk, htwicek, hlt⟩ := exists_longer_test h hg.1 hm htwice'
    have hkmem : k ∈ t.functions.filter (fun g => decide (twice g)) := by
      simpa [hk] using show twice k from htwicek
    exact absurd (List.le_of_mem_argmax hkmem hmax) (not_le.mpr hlt)

/-- Listing and running agree exactly if each test has something behind its `test_`, and no
second one. -/
theorem agrees_iff_oneTest (t : FunctionTable) : t.Agrees ↔ t.OneTest := by
  constructor
  · intro h f hf n hname
    have hlisted : ∀ n, t.Runs n → n ∈ t.subtests := fun n => (h.listed n).mpr
    exact ⟨(mem_subtests.mp (hlisted n ⟨f, hf, hname⟩)).2, not_twice_of_listed hlisted hf hname⟩
  · intro h
    refine ⟨mem_subtests_of_oneTest h, nodup_subtests h, ?_, ?_⟩
    · intro n hn
      exact (mem_subtests_of_oneTest h n).mp hn
    · rintro f hf ⟨n, hn⟩
      exact ⟨n, (mem_subtests_of_oneTest h n).mpr ⟨f, hf, hn.symm⟩, hn.symm⟩

/-- `test_bisect_test_all` is listed as `all`, which no function runs. -/
theorem all_listed_for_bisect_test_all :
    let t : FunctionTable := ⟨[.plain "test_bisect_test_all".toList (by decide)], by simp⟩
    t.subtests = ["all".toList] ∧ ¬ t.Runs "all".toList ∧ ¬ t.Agrees := by
  intro t
  have hlisted : t.subtests = ["all".toList] := by
    rw [subtests_eq]
    decide
  have hruns : ¬ t.Runs "all".toList := by
    rintro ⟨f, hf, hname⟩
    obtain rfl := List.mem_singleton.mp hf
    exact absurd hname (by decide)
  refine ⟨hlisted, hruns, ?_⟩
  intro h
  exact hruns (h.passes _ (by simp [hlisted]))

end FunctionTable

end KtestCi
