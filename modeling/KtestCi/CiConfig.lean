import KtestCi.TextMap

/-!
# The CI configuration

The resolved configuration the scheduler works from: the daemon's own settings, and per
user the test groups and branches. Fields that no modelled function reads are left out.
-/

namespace KtestCi

structure RepoConfig where
  path : Text
  url : Text
  pathUrl : Text

structure Ktestrc where
  linuxRepo : Text
  outputDir : Text
  ktestDir : Text
  ktestUrl : Option Text
  repos : TextMap RepoConfig
  subtestDurationDef : Option UInt64
  userNice : TextMap Int64
  keepResultsCommits : Option UInt64

namespace Ktestrc

/-- The local repository of a branch's `repo` name; `linux` has a fallback. -/
def repoPath (rc : Ktestrc) (name : Text) : Option Text :=
  match rc.repos[name]? with
  | some r => some r.path
  | none => if name = "linux".toList then some rc.linuxRepo else none

/-- The upstream a repository is fetched from. -/
def repoUrl (rc : Ktestrc) (name : Text) : Option Text := rc.repos[name]?.map RepoConfig.url

/-- Where workers check the repository out from. There is no fallback for `linux`. -/
def repoPathUrl (rc : Ktestrc) (name : Text) : Option Text :=
  rc.repos[name]?.map (fun r => if r.pathUrl.isEmpty then r.url else r.pathUrl)

end Ktestrc

/-- A test group with its `extends` chain flattened. -/
structure RcTestGroup where
  maxCommits : UInt64
  nice : UInt64
  testDurationNice : UInt64
  testAlwaysPassesNice : UInt64
  tests : List Text
  kernels : List Text
  env : TextMap Text

structure RcBranch where
  repo : Text
  testGroups : List Text

structure Userrc where
  testGroups : TextMap RcTestGroup
  branches : TextMap RcBranch

/-- The whole configuration. A user whose file did not parse is `none`. -/
structure CiConfig where
  ktest : Ktestrc
  users : TextMap (Option Userrc)

/-- The characters that an encoded environment reserves. -/
def envReserved (t : Text) : Bool :=
  t.contains [' '] || t.contains ['='] || t.contains [','] || t.contains ['/']

/-- `K1=V1,K2=V2`, in key order; `none` if a key or value is not encodable. -/
def encodeEnv (env : TextMap Text) : Option Text :=
  (env.toList.mapM (fun kv =>
    if kv.1.isEmpty || envReserved kv.1 then none
    else if envReserved kv.2 then none
    else some (kv.1 ++ '=' :: kv.2))).map (fun parts => [','].intercalate parts)

end KtestCi
