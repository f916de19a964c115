import KtestCi.CiConfig

/-!
# Encoded environments and the assignments read from them

The environment of a test group travels as one text `K1=V1,K2=V2`. The daemon cuts it at
the commas, drops empty pieces and puts what is left in front of the supervisor's command,
where the shell cuts every piece at its first `=`. The reserved characters make the cutting
exact: no piece holds a comma, no piece is empty and no key holds an `=`.
-/

namespace KtestCi

/-- The pieces of an encoded environment, as `job_env_prefix` cuts it. -/
def envPairs (env : Text) : List Text := (env.splitOn ',').filter (fun s => !s.isEmpty)

/-- The words in front of the supervisor's command. -/
def jobEnvPrefix (env ws : Text) : Text :=
  "ktest_deps_dir=$HOME/".toList ++ ws ++ ' ' :: (envPairs env).flatMap (fun pair => pair ++ [' '])

/-- An assignment of the shell: the name before the first `=`, the value after it. -/
def splitAssignment (pair : Text) : Text × Text :=
  (pair.takeWhile (fun c => c != '='), (pair.dropWhile (fun c => c != '=')).drop 1)

def envPair (kv : Text × Text) : Text := kv.1 ++ '=' :: kv.2

structure EnvEncodable (kv : Text × Text) : Prop where
  key_ne_nil : kv.1 ≠ []
  space : ' ' ∉ kv.1 ∧ ' ' ∉ kv.2
  equals : '=' ∉ kv.1 ∧ '=' ∉ kv.2
  comma : ',' ∉ kv.1 ∧ ',' ∉ kv.2
  slash : '/' ∉ kv.1 ∧ '/' ∉ kv.2

theorem envReserved_eq_false_iff (t : Text) :
    envReserved t = false ↔ ' ' ∉ t ∧ '=' ∉ t ∧ ',' ∉ t ∧ '/' ∉ t := by
  simp [envReserved, Text.contains, List.singleton_infix_iff, and_assoc]

theorem envEncodable_iff (kv : Text × Text) :
    EnvEncodable kv ↔ kv.1 ≠ [] ∧ envReserved kv.1 = false ∧ envReserved kv.2 = false := by
  rw [envReserved_eq_false_iff, envReserved_eq_false_iff]
  constructor
  · rintro ⟨hne, hspace, hequals, hcomma, hslash⟩
    exact ⟨hne, ⟨hspace.1, hequals.1, hcomma.1, hslash.1⟩, hspace.2, hequals.2, hcomma.2, hslash.2⟩
  · rintro ⟨hne, ⟨hs, he, hc, hl⟩, hs', he', hc', hl'⟩
    exact ⟨hne, ⟨hs, hs'⟩, ⟨he, he'⟩, ⟨hc, hc'⟩, ⟨hl, hl'⟩⟩

/-- One round of the loop of `encode_env`. -/
def encodePair (kv : Text × Text) : Option Text :=
  if kv.1.isEmpty || envReserved kv.1 then none
  else if envReserved kv.2 then none
  else some (kv.1 ++ '=' :: kv.2)

theorem encodePair_eq_some_iff (kv : Text × Text) (piece : Text) :
    encodePair kv = some piece ↔ EnvEncodable kv ∧ piece = envPair kv := by
  rw [envEncodable_iff, encodePair, envPair]
  by_cases hne : kv.1 = []
  · simp [hne]
  · cases hkey : envReserved kv.1 with
    | true => simp
    | false =>
      cases hvalue : envReserved kv.2 with
      | true => simp
      | false => simpa [hne] using eq_comm

/-- The output of `encode_env`, and when there is one. -/
theorem encodeEnv_eq_some_iff (env : TextMap Text) (out : Text) :
    encodeEnv env = some out ↔ (∀ kv ∈ env.toList, EnvEncodable kv) ∧
      out = [','].intercalate (env.toList.map envPair) := by
  have hdef : encodeEnv env =
      (env.toList.mapM encodePair).map (fun parts => [','].intercalate parts) := rfl
  rw [hdef, Option.map_eq_some_iff]
  constructor
  · rintro ⟨pieces, hpieces, rfl⟩
    obtain ⟨henc, rfl⟩ := (TextMap.mapM_eq_some_iff encodePair_eq_some_iff _ _).mp hpieces
    exact ⟨henc, rfl⟩
  · rintro ⟨henc, rfl⟩
    exact ⟨_, (TextMap.mapM_eq_some_iff encodePair_eq_some_iff _ _).mpr ⟨henc, rfl⟩, rfl⟩

theorem envPair_ne_nil (kv : Text × Text) : envPair kv ≠ [] := by simp [envPair]

theorem EnvEncodable.comma_notMem {kv : Text × Text} (h : EnvEncodable kv) : ',' ∉ envPair kv := by
  simp only [envPair, List.mem_append, List.mem_cons, not_or]
  exact ⟨h.comma.1, by decide, h.comma.2⟩

theorem slash_notMem_of_encodeEnv {env : TextMap Text} {out : Text} (h : encodeEnv env = some out) :
    '/' ∉ out := by
  obtain ⟨henc, rfl⟩ := (encodeEnv_eq_some_iff _ _).mp h
  refine Text.notMem_intercalate (by decide) ?_
  intro pair hpair
  obtain ⟨kv, hkv, rfl⟩ := List.mem_map.mp hpair
  simpa [envPair] using (henc kv hkv).slash

theorem envPairs_intercalate {pieces : List Text} (hcomma : ∀ p ∈ pieces, ',' ∉ p)
    (hne : ∀ p ∈ pieces, p ≠ []) : envPairs ([','].intercalate pieces) = pieces := by
  unfold envPairs
  by_cases hnil : pieces = []
  · subst hnil
    rfl
  · rw [List.splitOn_intercalate ',' hcomma hnil, List.filter_eq_self]
    intro p hp
    simpa using hne p hp

theorem splitAssignment_envPair {kv : Text × Text} (h : '=' ∉ kv.1) :
    splitAssignment (envPair kv) = kv := by
  have hkey : ∀ c ∈ kv.1, (c != '=') = true := by
    intro c hc
    have hne : c ≠ '=' := fun heq => h (heq ▸ hc)
    simpa using hne
  simp [splitAssignment, envPair, List.takeWhile_append_of_pos hkey,
    List.dropWhile_append_of_pos hkey]

theorem envPairs_of_encodeEnv {env : TextMap Text} {out : Text} (h : encodeEnv env = some out) :
    envPairs out = env.toList.map envPair := by
  obtain ⟨henc, rfl⟩ := (encodeEnv_eq_some_iff _ _).mp h
  refine envPairs_intercalate ?_ ?_
  · intro p hp
    obtain ⟨kv, hkv, rfl⟩ := List.mem_map.mp hp
    exact (henc kv hkv).comma_notMem
  · intro p hp
    obtain ⟨kv, _, rfl⟩ := List.mem_map.mp hp
    exact envPair_ne_nil kv

/-- What the shell reads in front of the command is the environment of the group. -/
theorem jobEnvPrefix_encodeEnv {env : TextMap Text} {out : Text} (h : encodeEnv env = some out)
    (ws : Text) :
    jobEnvPrefix out ws = "ktest_deps_dir=$HOME/".toList ++ ws ++
      ' ' :: env.toList.flatMap (fun kv => envPair kv ++ [' ']) := by
  have hwords : (envPairs out).flatMap (fun pair => pair ++ [' ']) =
      env.toList.flatMap (fun kv => envPair kv ++ [' ']) := by
    rw [envPairs_of_encodeEnv h, List.flatMap_map]
  exact congrArg (fun words => "ktest_deps_dir=$HOME/".toList ++ ws ++ ' ' :: words) hwords

theorem assignments_of_encodeEnv {env : TextMap Text} {out : Text} (h : encodeEnv env = some out) :
    (envPairs out).map splitAssignment = env.toList := by
  have henc := ((encodeEnv_eq_some_iff _ _).mp h).1
  rw [envPairs_of_encodeEnv h, List.map_map]
  calc env.toList.map (splitAssignment ∘ envPair)
    _ = env.toList.map id :=
        List.map_congr_left (fun kv hkv => splitAssignment_envPair (henc kv hkv).equals.1)
    _ = env.toList := List.map_id _

theorem encodeEnv_injective {env env' : TextMap Text} {out : Text} (h : encodeEnv env = some out)
    (h' : encodeEnv env' = some out) : env = env' := by
  have hlist : env.toList = env'.toList := by
    rw [← assignments_of_encodeEnv h, ← assignments_of_encodeEnv h']
  exact Std.ExtTreeMap.toList_inj.mp hlist

theorem encodeEnv_eq_some_nil_iff {env : TextMap Text} {out : Text} (h : encodeEnv env = some out) :
    out = [] ↔ env = ∅ := by
  constructor
  · rintro rfl
    have hlist : [] = env.toList := assignments_of_encodeEnv h
    exact Std.ExtTreeMap.toList_eq_nil_iff.mp hlist.symm
  · rintro rfl
    exact ((encodeEnv_eq_some_iff _ _).mp h).2

/-- Exactly the environments without reserved characters and empty keys are encoded, and what
the daemon and the shell cut out of the encoding is the environment, entry by entry. -/
theorem encodeEnv_roundTrip (env : TextMap Text) :
    ((∃ out, encodeEnv env = some out) ↔ ∀ k v : Text, env[k]? = some v →
      k ≠ [] ∧ ∀ c ∈ [' ', '=', ',', '/'], c ∉ k ∧ c ∉ v) ∧
    (∀ out, encodeEnv env = some out →
      (envPairs out).map splitAssignment = env.toList ∧ (out = [] ↔ env = ∅)) ∧
    ∀ (env' : TextMap Text) (out : Text),
      encodeEnv env = some out → encodeEnv env' = some out → env = env' := by
  refine ⟨?_, ?_, ?_⟩
  · simp only [encodeEnv_eq_some_iff, exists_and_left, exists_eq, and_true]
    constructor
    · intro henc k v hkv
      have h := henc (k, v) (Std.ExtTreeMap.mem_toList_iff_getElem?_eq_some.mpr hkv)
      exact ⟨h.key_ne_nil, by simpa using ⟨h.space, h.equals, h.comma, h.slash⟩⟩
    · intro henc kv hkv
      obtain ⟨hne, hchars⟩ := henc kv.1 kv.2 (Std.ExtTreeMap.mem_toList_iff_getElem?_eq_some.mp hkv)
      exact ⟨hne, hchars ' ' (by simp), hchars '=' (by simp), hchars ',' (by simp),
        hchars '/' (by simp)⟩
  · exact fun out h => ⟨assignments_of_encodeEnv h, encodeEnv_eq_some_nil_iff h⟩
  · exact fun env' out h h' => encodeEnv_injective h h'

end KtestCi
