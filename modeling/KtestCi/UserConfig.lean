import KtestCi.CiConfig
import KtestCi.ParentChains

/-!
# Reading a user's configuration

A user's file, after it has been parsed, gives test groups that may extend one another.
`resolve_group` flattens one of them and the groups it extends into a table that all calls
share, and keeps the names it is inside of on a stack. A branch may only name groups that
are in the table at the end. Where a branch is fetched from is not part of the model.
-/

namespace KtestCi

/-- A test group as written; `extends` names the group it inherits from. -/
structure RawTestGroup where
  extendsGroup : Option Text
  maxCommits : Option UInt64
  nice : Option UInt64
  testDurationNice : Option UInt64
  testAlwaysPassesNice : Option UInt64
  tests : Option (List Text)
  kernels : Option (List Text)
  env : Option (TextMap Text)

structure RawBranch where
  repo : Text
  testGroups : List Text

structure RawUserrc where
  testGroups : TextMap RawTestGroup
  branches : TextMap RawBranch

inductive ConfigError where
  | cycle (stack : List Text) (name : Text)
  | groupNotDefined (name : Text)
  | branchReferences (branch group : Text)

/-- The text of an error; `debug` is the quoted form of a string. -/
def ConfigError.message (debug : Text → Text) : ConfigError → Text
  | cycle stack name => "cycle in test_group extends: ".toList ++
      " -> ".toList.intercalate stack ++ " -> ".toList ++ name
  | groupNotDefined name => "test_group ".toList ++ debug name ++ " not defined".toList
  | branchReferences branch group => "branch ".toList ++ debug branch ++
      " references undefined test_group ".toList ++ debug group

/-- A group's own settings over those of its resolved parent. -/
def RawTestGroup.over (g : RawTestGroup) (parent : Option RcTestGroup) : RcTestGroup where
  maxCommits := (g.maxCommits.or (parent.map RcTestGroup.maxCommits)).getD 50
  nice := (g.nice.or (parent.map RcTestGroup.nice)).getD 0
  testDurationNice := (g.testDurationNice.or (parent.map RcTestGroup.testDurationNice)).getD 180
  testAlwaysPassesNice :=
    (g.testAlwaysPassesNice.or (parent.map RcTestGroup.testAlwaysPassesNice)).getD 10
  tests := (g.tests.or (parent.map RcTestGroup.tests)).getD []
  kernels := (g.kernels.or (parent.map RcTestGroup.kernels)).getD []
  env := (parent.map RcTestGroup.env).getD ∅ ∪ g.env.getD ∅

theorem length_filter_push_lt {raw : TextMap RawTestGroup} {stack : List Text} {name : Text}
    {g : RawTestGroup} (hname : name ∉ stack) (hg : raw[name]? = some g) :
    (raw.keys.filter (fun k => k ∉ stack ++ [name])).length <
      (raw.keys.filter (fun k => k ∉ stack)).length := by
  have hmem : name ∈ raw.keys.filter (fun k => k ∉ stack) :=
    List.mem_filter.mpr ⟨Std.ExtTreeMap.mem_keys.mpr (TextMap.mem_iff_exists.mpr ⟨g, hg⟩),
      by simpa using hname⟩
  have hsub : raw.keys.filter (fun k => k ∉ stack ++ [name]) =
      (raw.keys.filter (fun k => k ∉ stack)).filter (fun k => k ≠ name) := by
    rw [List.filter_filter]
    apply List.filter_congr
    intro k _
    by_cases hk : k ∈ stack <;> by_cases hn : k = name <;> simp [hk, hn]
  rw [hsub]
  exact List.length_filter_lt_length_iff_exists.mpr ⟨name, hmem, by simp⟩

/-- Resolve a group into the table, after the group it extends. The stack grows with every
level, by a defined name that was not on it. -/
def resolveGroup (raw : TextMap RawTestGroup) (name : Text) (resolved : TextMap RcTestGroup)
    (stack : List Text) : Except ConfigError (TextMap RcTestGroup × List Text) :=
  if resolved.contains name then .ok (resolved, stack)
  else if name ∈ stack then .error (.cycle stack name)
  else match hg : raw[name]? with
    | none => .error (.groupNotDefined name)
    | some g =>
      let inherited : Except ConfigError (TextMap RcTestGroup × List Text) :=
        match g.extendsGroup with
        | none => .ok (resolved, stack ++ [name])
        | some p => resolveGroup raw p resolved (stack ++ [name])
      inherited.map (fun r =>
        let parent := g.extendsGroup.bind (fun p => r.1[p]?)
        (r.1.insert name (g.over parent), r.2.dropLast))
termination_by (raw.keys.filter (fun k => k ∉ stack)).length
decreasing_by exact length_filter_push_lt (by assumption) hg

def resolveAll (raw : TextMap RawTestGroup) :
    List Text → TextMap RcTestGroup → List Text → Except ConfigError (TextMap RcTestGroup × List Text)
  | [], resolved, stack => .ok (resolved, stack)
  | name :: names, resolved, stack =>
    (resolveGroup raw name resolved stack).bind (fun r => resolveAll raw names r.1 r.2)

def checkBranches (resolved : TextMap RcTestGroup) : List (Text × RawBranch) → Except ConfigError Unit
  | [] => .ok ()
  | (bname, b) :: branches =>
    match b.testGroups.find? (fun tg => !resolved.contains tg) with
    | some tg => .error (.branchReferences bname tg)
    | none => checkBranches resolved branches

/-- `userrc_read_str` behind the parser. -/
def userrcReadStr (raw : RawUserrc) : Except ConfigError Userrc :=
  (resolveAll raw.testGroups raw.testGroups.keys ∅ []).bind (fun r =>
    (checkBranches r.1 raw.branches.toList).map (fun _ =>
      ⟨r.1, raw.branches.map (fun _ b => ⟨b.repo, b.testGroups⟩)⟩))

end KtestCi
