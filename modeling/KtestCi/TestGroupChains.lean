import KtestCi.UserConfig

/-!
# Test groups resolve along their chains

A resolved group holds, for every field, the value of the nearest group on its `extends`
chain that sets the field. The invariant is that the table holds chains only: it does not
say in which order they came in. An error means that some chain does not end.
-/

namespace KtestCi

open ParentChains

/-- The `extends` chain of a name. -/
abbrev GroupChain (raw : TextMap RawTestGroup) : Text → List RawTestGroup → Prop :=
  Chain (fun n => raw[n]?) RawTestGroup.extendsGroup

/-- The chain reaches a name that is not defined. -/
abbrev ReachesUndefined (raw : TextMap RawTestGroup) : Text → Prop :=
  Dangles (fun n => raw[n]?) RawTestGroup.extendsGroup

/-- The chain comes back to a group. -/
abbrev RevisitsGroup (raw : TextMap RawTestGroup) : Text → Prop :=
  Revisits (fun n => raw[n]?) RawTestGroup.extendsGroup

/-- Every field is the one of the nearest group that sets it, or the default. -/
structure Flattens (gs : List RawTestGroup) (g : RcTestGroup) : Prop where
  maxCommits : g.maxCommits = (gs.findSome? RawTestGroup.maxCommits).getD 50
  nice : g.nice = (gs.findSome? RawTestGroup.nice).getD 0
  testDurationNice : g.testDurationNice = (gs.findSome? RawTestGroup.testDurationNice).getD 180
  testAlwaysPassesNice :
    g.testAlwaysPassesNice = (gs.findSome? RawTestGroup.testAlwaysPassesNice).getD 10
  tests : g.tests = (gs.findSome? RawTestGroup.tests).getD []
  kernels : g.kernels = (gs.findSome? RawTestGroup.kernels).getD []
  env : ∀ k : Text, g.env[k]? = gs.findSome? (fun r => r.env.bind (fun e => e[k]?))

theorem Flattens.unique {gs : List RawTestGroup} {g g' : RcTestGroup} (h : Flattens gs g)
    (h' : Flattens gs g') : g = g' := by
  have henv : g.env = g'.env := by
    apply Std.ExtTreeMap.ext_getElem?
    intro k
    rw [h.env, h'.env]
  cases g
  cases g'
  simp only [RcTestGroup.mk.injEq]
  exact ⟨h.maxCommits.trans h'.maxCommits.symm, h.nice.trans h'.nice.symm,
    h.testDurationNice.trans h'.testDurationNice.symm,
    h.testAlwaysPassesNice.trans h'.testAlwaysPassesNice.symm, h.tests.trans h'.tests.symm,
    h.kernels.trans h'.kernels.symm, henv⟩

theorem getD_or_findSome? {β : Type} {own : Option β} {rest : Option β} {parent default : β}
    (h : parent = rest.getD default) : (own.or (some parent)).getD default = (own.or rest).getD default := by
  cases own <;> cases rest <;> simp_all

theorem findSome?_cons_or {α β : Type} (f : α → Option β) (a : α) (as : List α) :
    (a :: as).findSome? f = (f a).or (as.findSome? f) := by
  rw [List.findSome?_cons]
  cases f a <;> rfl

theorem getElem?_env_union (e : Option (TextMap Text)) (env : TextMap Text) (k : Text) :
    (env ∪ e.getD ∅)[k]? = (e.bind (fun e => e[k]?)).or env[k]? := by
  rw [Std.ExtTreeMap.getElem?_union]
  cases e with
  | none => simp
  | some e => simp

theorem flattens_root (r : RawTestGroup) : Flattens [r] (r.over none) := by
  constructor
  case env =>
    intro k
    rw [RawTestGroup.over, getElem?_env_union, findSome?_cons_or]
    simp
  all_goals simp [RawTestGroup.over, findSome?_cons_or]

theorem Flattens.over {gs : List RawTestGroup} {g : RcTestGroup} (h : Flattens gs g)
    (r : RawTestGroup) : Flattens (r :: gs) (r.over (some g)) := by
  constructor
  case env =>
    intro k
    rw [RawTestGroup.over, getElem?_env_union, findSome?_cons_or, Option.map_some, Option.getD_some,
      h.env k]
  all_goals
    simp only [RawTestGroup.over, findSome?_cons_or, Option.map_some]
    apply getD_or_findSome?
  · exact h.maxCommits
  · exact h.nice
  · exact h.testDurationNice
  · exact h.testAlwaysPassesNice
  · exact h.tests
  · exact h.kernels

/-- What the name resolves to, whatever the order of resolution. -/
def ResolvesTo (raw : TextMap RawTestGroup) (name : Text) (g : RcTestGroup) : Prop :=
  ∃ gs, GroupChain raw name gs ∧ Flattens gs g

theorem ResolvesTo.unique {raw : TextMap RawTestGroup} {name : Text} {g g' : RcTestGroup}
    (h : ResolvesTo raw name g) (h' : ResolvesTo raw name g') : g = g' := by
  obtain ⟨gs, hchain, hflat⟩ := h
  obtain ⟨gs', hchain', hflat'⟩ := h'
  rw [hchain.unique hchain'] at hflat
  exact hflat.unique hflat'

theorem ResolvesTo.mem {raw : TextMap RawTestGroup} {name : Text} {g : RcTestGroup}
    (h : ResolvesTo raw name g) : name ∈ raw := by
  obtain ⟨gs, hchain, -⟩ := h
  exact Std.ExtTreeMap.mem_iff_isSome_getElem?.mpr hchain.isSome

def Correct (raw : TextMap RawTestGroup) (table : TextMap RcTestGroup) : Prop :=
  ∀ (n : Text) (g : RcTestGroup), table[n]? = some g → ResolvesTo raw n g

theorem Correct.insert {raw : TextMap RawTestGroup} {table : TextMap RcTestGroup} {name : Text}
    {g : RcTestGroup} (h : Correct raw table) (hg : ResolvesTo raw name g) :
    Correct raw (table.insert name g) := by
  intro n g' hn
  rw [TextMap.getElem?_insert] at hn
  split_ifs at hn with heq
  · obtain rfl := Option.some.inj hn
    exact heq ▸ hg
  · exact h n g' hn

/-- Where a call of `resolve_group` can end. -/
inductive Resolution (raw : TextMap RawTestGroup) (name : Text) (table : TextMap RcTestGroup)
    (stack : List Text) : Except ConfigError (TextMap RcTestGroup × List Text) → Prop
  | known (h : name ∈ table) : Resolution raw name table stack (.ok (table, stack))
  | cycle (h : name ∈ stack) : Resolution raw name table stack (.error (.cycle stack name))
  | undefined (h : raw[name]? = none) :
      Resolution raw name table stack (.error (.groupNotDefined name))
  | root {g : RawTestGroup} (hg : raw[name]? = some g) (hroot : g.extendsGroup = none) :
      Resolution raw name table stack (.ok (table.insert name (g.over none), stack))
  | inherits {g : RawTestGroup} {p : Text} {r : TextMap RcTestGroup × List Text}
      (hs : name ∉ stack) (hg : raw[name]? = some g) (hp : g.extendsGroup = some p)
      (hr : resolveGroup raw p table (stack ++ [name]) = .ok r) :
      Resolution raw name table stack (.ok (r.1.insert name (g.over r.1[p]?), r.2.dropLast))
  | fails {g : RawTestGroup} {p : Text} {e : ConfigError} (hs : name ∉ stack)
      (hg : raw[name]? = some g) (hp : g.extendsGroup = some p)
      (hr : resolveGroup raw p table (stack ++ [name]) = .error e) :
      Resolution raw name table stack (.error e)

theorem resolution (raw : TextMap RawTestGroup) (name : Text) (table : TextMap RcTestGroup)
    (stack : List Text) : Resolution raw name table stack (resolveGroup raw name table stack) := by
  rw [resolveGroup]
  split_ifs with hknown hcycle
  · exact .known (Std.ExtTreeMap.mem_iff_contains.mpr hknown)
  · exact .cycle hcycle
  · split
    next hg => exact .undefined hg
    next g hg =>
      cases hp : g.extendsGroup with
      | none => simpa [hp, Except.map] using .root hg hp
      | some p =>
        cases hr : resolveGroup raw p table (stack ++ [name]) with
        | ok r => simpa [hp, hr, Except.map] using .inherits hcycle hg hp hr
        | error e => simpa [hp, hr, Except.map] using .fails hcycle hg hp hr

theorem stack_induction (raw : TextMap RawTestGroup) {motive : Text → List Text → Prop}
    (step : ∀ name stack, (∀ g p, name ∉ stack → raw[name]? = some g → motive p (stack ++ [name])) →
      motive name stack) (name : Text) (stack : List Text) : motive name stack :=
  step name stack (fun _ p _ _ => stack_induction raw step p (stack ++ [name]))
termination_by (raw.keys.filter (fun k => k ∉ stack)).length
decreasing_by exact length_filter_push_lt (by assumption) (by assumption)

/-- What calls for these names add to the table is right, and they leave the stack as it was. -/
structure Extended (raw : TextMap RawTestGroup) (table : TextMap RcTestGroup)
    (stack names : List Text) (r : TextMap RcTestGroup × List Text) : Prop where
  stack : r.2 = stack
  correct : Correct raw r.1
  kept : ∀ n ∈ table, n ∈ r.1
  added : ∀ n ∈ names, n ∈ r.1

theorem resolveGroup_ok {raw : TextMap RawTestGroup} {table : TextMap RcTestGroup}
    (hc : Correct raw table) (name : Text) (stack : List Text) :
    ∀ r, resolveGroup raw name table stack = .ok r → Extended raw table stack [name] r := by
  induction name, stack using stack_induction raw with
  | step name stack ih =>
    intro r h
    have hres := resolution raw name table stack
    rw [h] at hres
    cases hres with
    | known hmem => exact ⟨rfl, hc, fun _ hn => hn, by simpa using hmem⟩
    | @root g hg hroot =>
      refine ⟨rfl, hc.insert ⟨[g], .last hg hroot, flattens_root g⟩, ?_, by simp⟩
      exact fun n hn => Std.ExtTreeMap.mem_insert.mpr (.inr hn)
    | @inherits g p r' hs hg hp hr =>
      have hext := ih g p hs hg r' hr
      obtain ⟨parent, hparent⟩ := TextMap.mem_iff_exists.mp (hext.added p (by simp))
      obtain ⟨gs, hchain, hflat⟩ := hext.correct p parent hparent
      refine ⟨by simp [hext.stack], ?_, ?_, by simp⟩
      · rw [hparent]
        exact hext.correct.insert ⟨g :: gs, .cons hg hp hchain, hflat.over g⟩
      · exact fun n hn => Std.ExtTreeMap.mem_insert.mpr (.inr (hext.kept n hn))

theorem link_of_extends {raw : TextMap RawTestGroup} {name p : Text} {g : RawTestGroup}
    (hg : raw[name]? = some g) (hp : g.extendsGroup = some p) :
    Link (fun n => raw[n]?) RawTestGroup.extendsGroup name p := ⟨g, hg, hp⟩

/-- An error means a chain that does not end, or that leads back into the stack. -/
theorem resolveGroup_error {raw : TextMap RawTestGroup} {table : TextMap RcTestGroup}
    (name : Text) (stack : List Text) : ∀ e, resolveGroup raw name table stack = .error e →
      ReachesUndefined raw name ∨ RevisitsGroup raw name ∨ ∃ c ∈ stack,
        Relation.ReflTransGen (Link (fun n => raw[n]?) RawTestGroup.extendsGroup) name c := by
  induction name, stack using stack_induction raw with
  | step name stack ih =>
    intro e h
    have hres := resolution raw name table stack
    rw [h] at hres
    cases hres with
    | cycle hmem => exact .inr (.inr ⟨name, hmem, .refl⟩)
    | undefined hnone => exact .inl ⟨name, .refl, hnone⟩
    | @fails g p e hs hg hp hr =>
      have hlink := link_of_extends hg hp
      rcases ih g p hs hg e hr with hdangles | hrevisits | ⟨c, hc, hreach⟩
      · exact .inl (hdangles.of_link hlink)
      · exact .inr (.inl (hrevisits.of_link hlink))
      · rcases List.mem_append.mp hc with hc | hc
        · exact .inr (.inr ⟨c, hc, hreach.head hlink⟩)
        · obtain rfl := List.mem_singleton.mp hc
          exact .inr (.inl (revisits_of_link hlink hreach))

/-- A chain that does not end. -/
def Broken (raw : TextMap RawTestGroup) (name : Text) : Prop :=
  ReachesUndefined raw name ∨ RevisitsGroup raw name

theorem ResolvesTo.not_broken {raw : TextMap RawTestGroup} {name : Text} {g : RcTestGroup}
    (h : ResolvesTo raw name g) : ¬ Broken raw name := by
  obtain ⟨gs, hchain, -⟩ := h
  rintro (hdangles | hrevisits)
  · exact hchain.not_dangles hdangles
  · exact hchain.not_revisits hrevisits

theorem resolveAll_ok {raw : TextMap RawTestGroup} {stack : List Text} {names : List Text} :
    ∀ {table : TextMap RcTestGroup} {r : TextMap RcTestGroup × List Text}, Correct raw table →
      resolveAll raw names table stack = .ok r → Extended raw table stack names r := by
  induction names with
  | nil =>
    intro table r hc h
    obtain rfl := Except.ok.inj h
    exact ⟨rfl, hc, fun _ hn => hn, by simp⟩
  | cons name names ih =>
    intro table r hc h
    rw [resolveAll] at h
    cases hr : resolveGroup raw name table stack with
    | error e => simp [hr, Except.bind] at h
    | ok r' =>
      have hfirst := resolveGroup_ok hc name stack r' hr
      rw [hr, Except.bind, hfirst.stack] at h
      have hrest := ih hfirst.correct h
      refine ⟨hrest.stack, hrest.correct, ?_, ?_⟩
      · exact fun n hn => hrest.kept n (hfirst.kept n hn)
      · intro n hn
        cases hn with
        | head => exact hrest.kept name (hfirst.added name (by simp))
        | tail _ hn => exact hrest.added n hn

theorem resolveAll_error {raw : TextMap RawTestGroup} {names : List Text} {e : ConfigError} :
    ∀ {table : TextMap RcTestGroup}, Correct raw table → resolveAll raw names table [] = .error e →
      ∃ n ∈ names, Broken raw n := by
  induction names with
  | nil =>
    intro table hc h
    simp [resolveAll] at h
  | cons name names ih =>
    intro table hc h
    rw [resolveAll] at h
    cases hr : resolveGroup raw name table [] with
    | error e =>
      rcases resolveGroup_error name [] e hr with hdangles | hrevisits | ⟨c, hc, -⟩
      · exact ⟨name, by simp, .inl hdangles⟩
      · exact ⟨name, by simp, .inr hrevisits⟩
      · simp at hc
    | ok r' =>
      have hfirst := resolveGroup_ok hc name [] r' hr
      rw [hr, Except.bind, hfirst.stack] at h
      obtain ⟨n, hn, hbroken⟩ := ih hfirst.correct h
      exact ⟨n, List.mem_cons_of_mem name hn, hbroken⟩

theorem correct_empty (raw : TextMap RawTestGroup) : Correct raw ∅ := by
  intro n g hn
  simp at hn

theorem mem_keys_iff {raw : TextMap RawTestGroup} {n : Text} : n ∈ raw.keys ↔ n ∈ raw :=
  Std.ExtTreeMap.mem_keys

theorem resolveAll_keys {raw : TextMap RawTestGroup} {r : TextMap RcTestGroup × List Text}
    (h : resolveAll raw raw.keys ∅ [] = .ok r) :
    Correct raw r.1 ∧ ∀ n, n ∈ r.1 ↔ n ∈ raw := by
  have hext := resolveAll_ok (correct_empty raw) h
  refine ⟨hext.correct, fun n => ⟨fun hn => ?_, fun hn => hext.added n (mem_keys_iff.mpr hn)⟩⟩
  obtain ⟨g, hg⟩ := TextMap.mem_iff_exists.mp hn
  exact (hext.correct n g hg).mem

theorem checkBranches_ok_iff (resolved : TextMap RcTestGroup) (branches : List (Text × RawBranch)) :
    checkBranches resolved branches = .ok () ↔
      ∀ b ∈ branches, ∀ tg ∈ b.2.testGroups, tg ∈ resolved := by
  induction branches with
  | nil => simp [checkBranches]
  | cons b branches ih =>
    obtain ⟨bname, b⟩ := b
    rw [checkBranches, List.forall_mem_cons]
    split
    next tg htg =>
      have hmem := List.mem_of_find?_eq_some htg
      have hnot : resolved.contains tg = false := by simpa using List.find?_some htg
      simp only [reduceCtorEq, false_iff]
      intro hall
      rw [Std.ExtTreeMap.mem_iff_contains.mp (hall.1 tg hmem)] at hnot
      simp at hnot
    next hnone =>
      rw [ih, List.find?_eq_none] at *
      simp only [iff_and_self]
      intro _ tg htg
      simpa using hnone tg htg

theorem userrcReadStr_eq_ok_iff {raw : RawUserrc} {rc : Userrc} : userrcReadStr raw = .ok rc ↔
    ∃ r, resolveAll raw.testGroups raw.testGroups.keys ∅ [] = .ok r ∧
      checkBranches r.1 raw.branches.toList = .ok () ∧
      rc = ⟨r.1, raw.branches.map (fun _ b => ⟨b.repo, b.testGroups⟩)⟩ := by
  rw [userrcReadStr]
  cases resolveAll raw.testGroups raw.testGroups.keys ∅ [] with
  | error e => simp [Except.bind]
  | ok r =>
    cases hb : checkBranches r.1 raw.branches.toList with
    | error e => simp [Except.bind, Except.map, hb]
    | ok u => simp [Except.bind, Except.map, hb, eq_comm]

theorem Correct.ext {raw : TextMap RawTestGroup} {table table' : TextMap RcTestGroup}
    (h : Correct raw table) (h' : Correct raw table') (hmem : ∀ n, n ∈ table ↔ n ∈ table') :
    table = table' := by
  apply Std.ExtTreeMap.ext_getElem?
  intro n
  by_cases hn : n ∈ table
  · obtain ⟨g, hg⟩ := TextMap.mem_iff_exists.mp hn
    obtain ⟨g', hg'⟩ := TextMap.mem_iff_exists.mp ((hmem n).mp hn)
    rw [hg, hg', (h n g hg).unique (h' n g' hg')]
  · rw [Std.ExtTreeMap.getElem?_eq_none hn, Std.ExtTreeMap.getElem?_eq_none (mt (hmem n).mpr hn)]

/-- Every group is the flattening of its chain, and neither the order of the visits nor what
is already in the table changes the result. -/
theorem userrcReadStr_groups (raw : RawUserrc) (rc : Userrc) (h : userrcReadStr raw = .ok rc) :
    (∀ n : Text, n ∈ rc.testGroups ↔ n ∈ raw.testGroups) ∧
    (∀ (n : Text) (g : RcTestGroup), rc.testGroups[n]? = some g →
      ∃ gs, GroupChain raw.testGroups n gs ∧ Flattens gs g) ∧
    ∀ (visits : List Text) (memo : TextMap RcTestGroup), (∀ n ∈ visits, n ∈ raw.testGroups) →
      (∀ (n : Text) (g : RcTestGroup), memo[n]? = some g → rc.testGroups[n]? = some g) →
      (∀ n ∈ raw.testGroups, n ∈ memo ∨ n ∈ visits) →
      resolveAll raw.testGroups visits memo [] = .ok (rc.testGroups, []) := by
  obtain ⟨r, hr, -, rfl⟩ := userrcReadStr_eq_ok_iff.mp h
  obtain ⟨hcorrect, hmem⟩ := resolveAll_keys hr
  refine ⟨hmem, hcorrect, ?_⟩
  intro visits memo hvisits hmemo hcover
  have hstart : Correct raw.testGroups memo := fun n g hn => hcorrect n g (hmemo n g hn)
  cases hv : resolveAll raw.testGroups visits memo [] with
  | error e =>
    obtain ⟨n, hn, hbroken⟩ := resolveAll_error hstart hv
    obtain ⟨g, hg⟩ := TextMap.mem_iff_exists.mp ((hmem n).mpr (hvisits n hn))
    exact absurd hbroken (hcorrect n g hg).not_broken
  | ok v =>
    have hext := resolveAll_ok hstart hv
    have htable : v.1 = r.1 := by
      apply hext.correct.ext hcorrect
      intro n
      rw [hmem]
      constructor
      · intro hn
        obtain ⟨g, hg⟩ := TextMap.mem_iff_exists.mp hn
        exact (hext.correct n g hg).mem
      · intro hn
        rcases hcover n hn with hknown | hvisited
        · exact hext.kept n hknown
        · exact hext.added n hvisited
    rw [← htable, ← hext.stack]

def inheritingUserrc : RawUserrc where
  testGroups := ((∅ : TextMap RawTestGroup).insert "base".toList
    ⟨none, none, none, none, none, some ["a.ktest".toList], some ["k".toList],
      some (((∅ : TextMap Text).insert "FOO".toList "1".toList).insert "BAR".toList "base".toList)⟩).insert
    "ext".toList ⟨some "base".toList, none, some 5, none, none, none, none,
      some (((∅ : TextMap Text).insert "BAR".toList "child".toList).insert "BAZ".toList "2".toList)⟩
  branches := ∅

theorem inheritingUserrc_reversed : ∃ rc, userrcReadStr inheritingUserrc = .ok rc ∧
    resolveAll inheritingUserrc.testGroups inheritingUserrc.testGroups.keys.reverse ∅ [] =
      .ok (rc.testGroups, []) := by
  have hok : (userrcReadStr inheritingUserrc).isOk = true := by decide +kernel
  cases h : userrcReadStr inheritingUserrc with
  | error e => simp [h, Except.isOk, Except.toBool] at hok
  | ok rc =>
    refine ⟨rc, rfl, (userrcReadStr_groups inheritingUserrc rc h).2.2 _ ∅ ?_ ?_ ?_⟩
    · intro n hn
      exact mem_keys_iff.mp (List.mem_reverse.mp hn)
    · intro n g hn
      simp at hn
    · intro n hn
      exact .inr (List.mem_reverse.mpr (mem_keys_iff.mpr hn))

/-- The groups and branches are refused exactly when a chain does not end or a branch names a
group that is not defined. -/
theorem userrcReadStr_error_iff (raw : RawUserrc) :
    (∃ e, userrcReadStr raw = .error e) ↔
      (∃ n ∈ raw.testGroups, ReachesUndefined raw.testGroups n) ∨
      (∃ n ∈ raw.testGroups, RevisitsGroup raw.testGroups n) ∨
      ∃ (bname : Text) (b : RawBranch), raw.branches[bname]? = some b ∧
        ∃ tg ∈ b.testGroups, tg ∉ raw.testGroups := by
  constructor
  · rintro ⟨e, h⟩
    cases hr : resolveAll raw.testGroups raw.testGroups.keys ∅ [] with
    | error e =>
      obtain ⟨n, hn, hdangles | hrevisits⟩ := resolveAll_error (correct_empty _) hr
      · exact .inl ⟨n, mem_keys_iff.mp hn, hdangles⟩
      · exact .inr (.inl ⟨n, mem_keys_iff.mp hn, hrevisits⟩)
    | ok r =>
      have hmem := (resolveAll_keys hr).2
      by_contra! hnone
      have hbranches : checkBranches r.1 raw.branches.toList = .ok () := by
        rw [checkBranches_ok_iff]
        intro b hb tg htg
        exact (hmem tg).mpr (hnone.2.2 b.1 b.2 (Std.ExtTreeMap.mem_toList_iff_getElem?_eq_some.mp hb) tg htg)
      rw [userrcReadStr_eq_ok_iff.mpr ⟨r, hr, hbranches, rfl⟩] at h
      simp at h
  · intro hbad
    cases h : userrcReadStr raw with
    | error e => exact ⟨e, rfl⟩
    | ok rc =>
      obtain ⟨r, hr, hbranches, -⟩ := userrcReadStr_eq_ok_iff.mp h
      obtain ⟨hcorrect, hmem⟩ := resolveAll_keys hr
      have hends : ∀ n ∈ raw.testGroups, ¬ Broken raw.testGroups n := by
        intro n hn
        obtain ⟨g, hg⟩ := TextMap.mem_iff_exists.mp ((hmem n).mpr hn)
        exact (hcorrect n g hg).not_broken
      rcases hbad with ⟨n, hn, hdangles⟩ | ⟨n, hn, hrevisits⟩ | ⟨bname, b, hb, tg, htg, hundefined⟩
      · exact absurd (.inl hdangles) (hends n hn)
      · exact absurd (.inr hrevisits) (hends n hn)
      · rw [checkBranches_ok_iff] at hbranches
        have hb' := Std.ExtTreeMap.mem_toList_iff_getElem?_eq_some.mpr hb
        exact absurd ((hmem tg).mp (hbranches (bname, b) hb' tg htg)) hundefined

end KtestCi
