import KtestCi.EnvEncoding
import KtestCi.ResultKeys
import KtestCi.ShellWords

/-!
# Environments and result keys in the commands of a job

The daemon puts the encoded environment of a job in front of the supervisor's command, and
its result keys into the commands that prepare and pull the results, all without quotes.
`encode_env` refuses the space and the characters it needs itself, and lets the other
characters pass that the shell treats specially.
-/

namespace KtestCi

open Text

def jobWorkspace (slot : ℕ) : Text := "ktest-ci/".toList ++ (toString slot).toList

def depsDirWord (ws : Text) : Text := "ktest_deps_dir=$HOME/".toList ++ ws

/-- Mark one subtest in progress on the worker. -/
def markCommand (d : Text) : Text :=
  "mkdir -p ktest-out/out/".toList ++ d ++ "; echo 'IN PROGRESS' > ktest-out/out/".toList ++ d ++
    "/status".toList

/-- Archive the result directories on the worker. -/
def tarCommand (dirs : List Text) : Text := "tar -c ".toList ++ [' '].intercalate dirs

/-- The prefix is read as the assignments of the environment, behind the fixed one: apart from
the spaces between them nothing in it is special, and every word is an assignment. -/
structure AssignsExactly (env : TextMap Text) (ws envPrefix : Text) : Prop where
  plain : ∃ rest, envPrefix = depsDirWord ws ++ ' ' :: rest ∧ ∀ c ∈ rest, c ≠ ' ' → isShellMeta c = false
  words : shellWords envPrefix = depsDirWord ws :: env.toList.map envPair
  assigns : ∀ w ∈ shellWords envPrefix, isAssignment w = true
  values : (shellWords envPrefix).map splitAssignment =
    ("ktest_deps_dir".toList, "$HOME/".toList ++ ws) :: env.toList

/-- Every key is a single word where it is put into a command. -/
structure SingleWords (keys : List Text) : Prop where
  plain : ∀ d ∈ keys, ShellPlain d
  mark : ∀ d ∈ keys, shellWords (markCommand d) =
    ["mkdir".toList, "-p".toList, "ktest-out/out/".toList ++ d ++ [';'], "echo".toList, "'IN".toList,
      "PROGRESS'".toList, ">".toList, "ktest-out/out/".toList ++ d ++ "/status".toList]
  tar : shellWords (tarCommand keys) = "tar".toList :: "-c".toList :: keys

theorem shellPlain_jobWorkspace (slot : ℕ) : ShellPlain (jobWorkspace slot) := by
  have hfixed : ShellPlain "ktest-ci/".toList := by decide
  refine shellPlain_append.mpr ⟨hfixed, ?_⟩
  intro c hc
  have hdigit : c.isDigit = true := by
    rw [Nat.toString_eq_repr, Nat.toList_repr] at hc
    exact Nat.isDigit_of_mem_toDigits (by omega) (by omega) hc
  cases hmeta : isShellMeta c with
  | false => rfl
  | true =>
    have hnum := (isAlphanum_eq_false_of_meta hmeta).1
    simp [Char.isAlphanum, hdigit] at hnum

theorem shellWord_depsDirWord {ws : Text} (hws : ShellPlain ws) : ShellWord (depsDirWord ws) := by
  have hfixed : ShellWord "ktest_deps_dir=$HOME/".toList := shellWord_of_all (by decide) (by decide)
  refine ⟨List.append_ne_nil_of_left_ne_nil hfixed.nonempty ws, ?_⟩
  intro c hc
  rcases List.mem_append.mp hc with hc | hc
  · exact hfixed.noBlank c hc
  · exact isShellBlank_of_plain hws c hc

theorem takeWhile_envPair {kv : Text × Text} (h : '=' ∉ kv.1) :
    (envPair kv).takeWhile (fun c => c != '=') = kv.1 :=
  congrArg Prod.fst (splitAssignment_envPair h)

theorem contains_envPair (kv : Text × Text) : (envPair kv).contains ['='] = true := by
  rw [contains_eq_true, List.singleton_infix_iff]
  simp [envPair]

theorem depsDir_eq_append :
    "ktest_deps_dir=$HOME/".toList = "ktest_deps_dir".toList ++ '=' :: "$HOME/".toList := by decide

/-- The fixed assignment is the pair of its name and its value. -/
theorem depsDirWord_eq_envPair (ws : Text) :
    depsDirWord ws = envPair ("ktest_deps_dir".toList, "$HOME/".toList ++ ws) :=
  calc depsDirWord ws
    _ = ("ktest_deps_dir".toList ++ '=' :: "$HOME/".toList) ++ ws := by rw [← depsDir_eq_append]; rfl
    _ = "ktest_deps_dir".toList ++ '=' :: ("$HOME/".toList ++ ws) := by
        rw [List.append_assoc, List.cons_append]

theorem shellPlain_envPair {kv : Text × Text} (hkey : isShellName kv.1 = true)
    (hvalue : ShellPlain kv.2) : ShellPlain (envPair kv) := by
  rw [envPair, shellPlain_append, shellPlain_cons]
  exact ⟨shellPlain_of_isShellName hkey, by decide, hvalue⟩

theorem isAssignment_envPair {kv : Text × Text} (h : '=' ∉ kv.1) :
    isAssignment (envPair kv) = isShellName kv.1 := by
  rw [isAssignment, contains_envPair, takeWhile_envPair h, Bool.true_and]

theorem isShellName_depsDir : isShellName "ktest_deps_dir".toList = true := by decide

theorem equals_notMem_depsDir : '=' ∉ "ktest_deps_dir".toList := by decide

/-- The shell reads the prefix as the environment exactly if the keys are names and the values
have no special characters. -/
theorem assignsExactly_iff {env : TextMap Text} {out : Text} (h : encodeEnv env = some out)
    {ws : Text} (hws : ShellPlain ws) : AssignsExactly env ws (jobEnvPrefix out ws) ↔
      ∀ kv ∈ env.toList, isShellName kv.1 = true ∧ ShellPlain kv.2 := by
  have henc := ((encodeEnv_eq_some_iff _ _).mp h).1
  have hpre : jobEnvPrefix out ws = depsDirWord ws ++
      ' ' :: env.toList.flatMap (fun kv => envPair kv ++ [' ']) := jobEnvPrefix_encodeEnv h ws
  constructor
  · intro hassigns kv hkv
    constructor
    · have hword : envPair kv ∈ shellWords (jobEnvPrefix out ws) := by
        rw [hassigns.words]
        exact List.mem_cons_of_mem _ (List.mem_map_of_mem hkv)
      rw [← isAssignment_envPair (henc kv hkv).equals.1]
      exact hassigns.assigns _ hword
    · obtain ⟨rest, hrest, hplain⟩ := hassigns.plain
      have hrest : env.toList.flatMap (fun kv => envPair kv ++ [' ']) = rest := by
        rw [hpre] at hrest
        exact (List.cons.inj (List.append_cancel_left hrest)).2
      intro c hc
      refine hplain c ?_ (fun hspace => (henc kv hkv).space.2 (hspace ▸ hc))
      rw [← hrest]
      exact List.mem_flatMap.mpr ⟨kv, hkv, by simp [envPair, hc]⟩
  · intro hall
    have hpairs : ∀ w ∈ env.toList.map envPair, ShellWord w := by
      intro w hw
      obtain ⟨kv, hkv, rfl⟩ := List.mem_map.mp hw
      obtain ⟨hkey, hvalue⟩ := hall kv hkv
      exact ⟨envPair_ne_nil kv, isShellBlank_of_plain (shellPlain_envPair hkey hvalue)⟩
    have hwords : shellWords (jobEnvPrefix out ws) = depsDirWord ws :: env.toList.map envPair := by
      rw [hpre, shellWords_cons (shellWord_depsDirWord hws) (by decide)]
      have hflat : env.toList.flatMap (fun kv => envPair kv ++ [' ']) =
          (env.toList.map envPair).flatMap (fun w => w ++ [' ']) := by rw [List.flatMap_map]
      rw [hflat, shellWords_flatMap hpairs]
    refine ⟨⟨_, hpre, ?_⟩, hwords, ?_, ?_⟩
    · intro c hc hspace
      obtain ⟨kv, hkv, hc⟩ := List.mem_flatMap.mp hc
      obtain ⟨hkey, hvalue⟩ := hall kv hkv
      rcases List.mem_append.mp hc with hc | hc
      · exact shellPlain_envPair hkey hvalue c hc
      · exact absurd (List.mem_singleton.mp hc) hspace
    · rw [hwords, List.forall_mem_cons]
      constructor
      · rw [depsDirWord_eq_envPair, isAssignment_envPair equals_notMem_depsDir]
        exact isShellName_depsDir
      · intro w hw
        obtain ⟨kv, hkv, rfl⟩ := List.mem_map.mp hw
        rw [isAssignment_envPair (henc kv hkv).equals.1]
        exact (hall kv hkv).1
    · have hvalues : (env.toList.map envPair).map splitAssignment = env.toList := by
        rw [← envPairs_of_encodeEnv h]
        exact assignments_of_encodeEnv h
      rw [hwords, List.map_cons, hvalues, depsDirWord_eq_envPair,
        splitAssignment_envPair equals_notMem_depsDir]

theorem shellPlain_testNameWithKernel (test kernel : Text) :
    ShellPlain (testNameWithKernel test kernel) ↔ ShellPlain test ∧ ShellPlain kernel := by
  have hktest : ShellPlain ".ktest".toList := by decide
  have htest : ShellPlain ((test.replace ".ktest".toList []).replaceChar '/' '.') ↔ ShellPlain test := by
    rw [shellPlain_replaceChar (by decide) (by decide),
      shellPlain_replace (by decide) hktest shellPlain_nil]
  have hkernel : ShellPlain (sanitizeKernel kernel) ↔ ShellPlain kernel :=
    shellPlain_replaceChar (by decide) (by decide) kernel
  have hat : isShellMeta '@' = false := by decide
  rw [testNameWithKernel]
  cases kernel with
  | nil => simpa using htest
  | cons c kernel =>
    rw [if_neg (by simp), shellPlain_append, shellPlain_cons, htest, hkernel]
    simp [hat]

theorem shellPlain_subtestResultKey (test subtest kernel env : Text) :
    ShellPlain (subtestResultKey test subtest kernel env) ↔
      ShellPlain test ∧ ShellPlain kernel ∧ ShellPlain env ∧ ShellPlain subtest := by
  have hat : isShellMeta '@' = false := by decide
  have hdot : isShellMeta '.' = false := by decide
  have hbase : ShellPlain (resultBasename test kernel env) ↔
      ShellPlain test ∧ ShellPlain kernel ∧ ShellPlain env := by
    rw [resultBasename]
    cases env with
    | nil => simp [shellPlain_testNameWithKernel]
    | cons c env => simp [shellPlain_testNameWithKernel, hat, and_assoc]
  rw [subtestResultKey, shellPlain_append, shellPlain_cons, hbase,
    shellPlain_replaceChar (by decide) (by decide)]
  simp [hdot, and_assoc]

theorem subtestResultKey_ne_nil (test subtest kernel env : Text) :
    subtestResultKey test subtest kernel env ≠ [] := by simp [subtestResultKey]

theorem mkdir_eq_append : "mkdir -p ktest-out/out/".toList =
    "mkdir".toList ++ ' ' :: ("-p".toList ++ ' ' :: "ktest-out/out/".toList) := by decide

theorem echo_eq_append : "; echo 'IN PROGRESS' > ktest-out/out/".toList =
    ';' :: ' ' :: ("echo".toList ++ ' ' :: ("'IN".toList ++ ' ' :: ("PROGRESS'".toList ++
      ' ' :: (">".toList ++ ' ' :: "ktest-out/out/".toList)))) := by decide

theorem tar_eq_append : "tar -c ".toList = "tar".toList ++ ' ' :: ("-c".toList ++ [' ']) := by decide

theorem shellWords_twice {mkdir p out echo inWord progress gt status before between d : Text}
    (hbefore : before = mkdir ++ ' ' :: (p ++ ' ' :: out))
    (hbetween : between = ';' :: ' ' :: (echo ++ ' ' :: (inWord ++ ' ' :: (progress ++
      ' ' :: (gt ++ ' ' :: out)))))
    (hfixed : ∀ w ∈ [mkdir, p, out, echo, inWord, progress, gt, status], ShellWord w)
    (hd : ∀ c ∈ d, isShellBlank c = false) :
    shellWords (before ++ d ++ between ++ d ++ status) =
      [mkdir, p, out ++ d ++ [';'], echo, inWord, progress, gt, out ++ d ++ status] := by
  have hjoin : before ++ d ++ between ++ d ++ status = [' '].intercalate
      [mkdir, p, out ++ d ++ [';'], echo, inWord, progress, gt, out ++ d ++ status] := by
    simp [hbefore, hbetween, List.intercalate_cons_cons]
  have hsemicolon : isShellBlank ';' = false := by decide
  rw [hjoin]
  apply shellWords_intercalate
  simp only [List.forall_mem_cons, List.not_mem_nil, false_imp_iff, implies_true, and_true] at hfixed
  obtain ⟨hmkdir, hp, hout, hecho, hin, hprogress, hgt, hstatus⟩ := hfixed
  have hdir : ∀ rest : Text, (∀ c ∈ rest, isShellBlank c = false) →
      ShellWord (out ++ d ++ rest) := by
    intro rest hrest
    refine ⟨by simp [hout.nonempty], ?_⟩
    rw [List.forall_mem_append, List.forall_mem_append]
    exact ⟨⟨hout.noBlank, hd⟩, hrest⟩
  simp only [List.forall_mem_cons, List.not_mem_nil, false_imp_iff, implies_true, and_true]
  exact ⟨hmkdir, hp, hdir _ (by simpa using hsemicolon), hecho, hin, hprogress, hgt, hdir _ hstatus.noBlank⟩

theorem shellWords_markCommand {d : Text} (hd : ∀ c ∈ d, isShellBlank c = false) :
    shellWords (markCommand d) =
      ["mkdir".toList, "-p".toList, "ktest-out/out/".toList ++ d ++ [';'], "echo".toList, "'IN".toList,
        "PROGRESS'".toList, ">".toList, "ktest-out/out/".toList ++ d ++ "/status".toList] := by
  refine shellWords_twice mkdir_eq_append echo_eq_append ?_ hd
  simp only [List.forall_mem_cons, List.not_mem_nil, false_imp_iff, implies_true, and_true]
  refine ⟨?_, ?_, ?_, ?_, ?_, ?_, ?_, ?_⟩ <;> exact shellWord_of_all (by decide) (by decide)

theorem shellWords_cons_cons {tar opt before : Text} (hbefore : before = tar ++ ' ' :: (opt ++ [' ']))
    (htar : ShellWord tar) (hopt : ShellWord opt) (rest : Text) :
    shellWords (before ++ rest) = tar :: opt :: shellWords rest := by
  have hjoin : before ++ rest = tar ++ ' ' :: (opt ++ ' ' :: rest) := by simp [hbefore]
  rw [hjoin, shellWords_cons htar (by decide), shellWords_cons hopt (by decide)]

theorem shellWords_tarCommand {dirs : List Text} (h : ∀ d ∈ dirs, ShellWord d) :
    shellWords (tarCommand dirs) = "tar".toList :: "-c".toList :: dirs := by
  have htar : ShellWord "tar".toList := shellWord_of_all (by decide) (by decide)
  have hopt : ShellWord "-c".toList := shellWord_of_all (by decide) (by decide)
  exact (shellWords_cons_cons tar_eq_append htar hopt _).trans
    (congrArg (fun ws => "tar".toList :: "-c".toList :: ws) (shellWords_intercalate h))

/-- Keys without special characters are single words. -/
theorem singleWords_iff {keys : List Text} (hne : ∀ d ∈ keys, d ≠ []) :
    SingleWords keys ↔ ∀ d ∈ keys, ShellPlain d := by
  refine ⟨SingleWords.plain, fun h => ⟨h, ?_, ?_⟩⟩
  · exact fun d hd => shellWords_markCommand (isShellBlank_of_plain (h d hd))
  · exact shellWords_tarCommand (fun d hd => ⟨hne d hd, isShellBlank_of_plain (h d hd)⟩)

theorem shellPlain_of_encodeEnv {env : TextMap Text} {out : Text} (h : encodeEnv env = some out)
    (hall : ∀ kv ∈ env.toList, isShellName kv.1 = true ∧ ShellPlain kv.2) : ShellPlain out := by
  obtain ⟨-, rfl⟩ := (encodeEnv_eq_some_iff _ _).mp h
  have hcomma : ShellPlain [','] := by decide
  refine shellPlain_intercalate hcomma ?_
  intro pair hpair
  obtain ⟨kv, hkv, rfl⟩ := List.mem_map.mp hpair
  exact shellPlain_envPair (hall kv hkv).1 (hall kv hkv).2

/-- The commands need no quotes exactly if every key of the environment is a name, no value
has a special character, and the test, the kernel and the subtests have none either. -/
theorem jobCommands_needNoQuotes_iff {env : TextMap Text} {out : Text} (h : encodeEnv env = some out)
    (slot : ℕ) (test kernel : Text) (remaining : List Text) :
    (AssignsExactly env (jobWorkspace slot) (jobEnvPrefix out (jobWorkspace slot)) ∧
      SingleWords (remaining.map (fun st => subtestResultKey test st kernel out))) ↔
    (∀ k v : Text, env[k]? = some v → isShellName k = true ∧ ShellPlain v) ∧
      ∀ st ∈ remaining, ShellPlain test ∧ ShellPlain kernel ∧ ShellPlain st := by
  have hentries : (∀ kv ∈ env.toList, isShellName kv.1 = true ∧ ShellPlain kv.2) ↔
      ∀ k v : Text, env[k]? = some v → isShellName k = true ∧ ShellPlain v := by
    constructor
    · exact fun hall k v hkv => hall (k, v) (Std.ExtTreeMap.mem_toList_iff_getElem?_eq_some.mpr hkv)
    · exact fun hall kv hkv => hall kv.1 kv.2 (Std.ExtTreeMap.mem_toList_iff_getElem?_eq_some.mp hkv)
  have hne : ∀ d ∈ remaining.map (fun st => subtestResultKey test st kernel out), d ≠ [] := by
    intro d hd
    obtain ⟨st, -, rfl⟩ := List.mem_map.mp hd
    exact subtestResultKey_ne_nil test st kernel out
  rw [assignsExactly_iff h (shellPlain_jobWorkspace slot), hentries, singleWords_iff hne]
  refine and_congr_right (fun hall => ?_)
  have hout := shellPlain_of_encodeEnv h (hentries.mpr hall)
  simp [shellPlain_subtestResultKey, hout]

def plainEnv : TextMap Text := (∅ : TextMap Text).insert "ktest_x".toList "1".toList

theorem encodeEnv_plainEnv : encodeEnv plainEnv = some "ktest_x=1".toList := by decide +kernel

/-- A job whose commands need no quotes. -/
theorem jobCommands_needNoQuotes_plainEnv : encodeEnv plainEnv = some "ktest_x=1".toList ∧
    AssignsExactly plainEnv (jobWorkspace 0) (jobEnvPrefix "ktest_x=1".toList (jobWorkspace 0)) ∧
      SingleWords (["boot".toList].map (fun st =>
        subtestResultKey "boot.ktest".toList st [] "ktest_x=1".toList)) := by
  refine ⟨encodeEnv_plainEnv, (jobCommands_needNoQuotes_iff encodeEnv_plainEnv 0 _ _ _).mpr ⟨?_, ?_⟩⟩
  · intro k v hkv
    rw [plainEnv, TextMap.getElem?_insert] at hkv
    split_ifs at hkv with hk
    · obtain rfl := hk
      obtain rfl := Option.some.inj hkv
      exact ⟨by decide, by decide⟩
    · simp at hkv
  · intro st hst
    obtain rfl := List.mem_singleton.mp hst
    decide

def rebootEnv : TextMap Text := (∅ : TextMap Text).insert "ktest_x".toList "1;reboot".toList

theorem encodeEnv_rebootEnv : encodeEnv rebootEnv = some "ktest_x=1;reboot".toList := by
  decide +kernel

/-- A value with a semicolon ends the command. -/
theorem jobCommands_not_needNoQuotes : ¬ ∀ (env : TextMap Text) (out : Text), encodeEnv env = some out →
    ∀ (slot : ℕ) (test kernel : Text) (remaining : List Text),
      AssignsExactly env (jobWorkspace slot) (jobEnvPrefix out (jobWorkspace slot)) ∧
        SingleWords (remaining.map (fun st => subtestResultKey test st kernel out)) := by
  intro hclaim
  obtain ⟨hassigns, -⟩ := hclaim rebootEnv _ encodeEnv_rebootEnv 0 "boot.ktest".toList [] ["boot".toList]
  have hall := (assignsExactly_iff encodeEnv_rebootEnv (shellPlain_jobWorkspace 0)).mp hassigns
  have hmem : ("ktest_x".toList, "1;reboot".toList) ∈ rebootEnv.toList := by
    simp [rebootEnv, Std.ExtTreeMap.mem_toList_iff_getElem?_eq_some]
  have hmeta := (hall _ hmem).2 ';' (by decide)
  revert hmeta
  decide

end KtestCi
