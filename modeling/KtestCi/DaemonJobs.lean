import KtestCi.JobMatrix

/-!
# Jobs as the daemon submits them

A desired job becomes a job specification: the parameters its executor needs, and a batch
key that is shared by the subtests that may run in one VM. The queue's scheduling weight is
a floating-point function of the niceness given here.
-/

namespace KtestCi

structure JobParams where
  repo : Text
  commit : Text
  kernel : Text
  env : Text
  test : Text
  subtest : Text
  repoUrl : Text
  ktestUrl : Text
  outputDir : Text
  deriving DecidableEq

def JobParams.resultKey (p : JobParams) : Text := subtestResultKey p.test p.subtest p.kernel p.env

structure JobSpec where
  name : Text
  params : JobParams
  batchKey : Text
  cost : UInt64
  group : Text
  nice : Int64
  deriving DecidableEq

def shortCommit (c : Text) : Text := c.take 12

/-- Everything but the subtest, separated by null characters. -/
def batchKey (k : JobKey) : Text :=
  let nul := Char.ofNat 0
  k.user ++ nul :: k.repo ++ nul :: k.commit ++ nul :: k.kernel ++ nul :: k.env ++ nul :: k.test

def makeJobSpec (rc : CiConfig) (job : Job) : JobSpec where
  name := shortCommit job.key.commit ++ ' ' :: job.key.test ++ ' ' :: job.key.subtest
  params :=
    { repo := job.key.repo
      commit := job.key.commit
      kernel := job.key.kernel
      env := job.key.env
      test := job.key.test
      subtest := job.key.subtest
      repoUrl := (rc.ktest.repoPathUrl job.key.repo).getD []
      ktestUrl := rc.ktest.ktestUrl.getD []
      outputDir := rc.ktest.outputDir }
  batchKey := batchKey job.key
  cost := job.duration
  group := job.key.user
  nice := job.nice + (rc.ktest.userNice[job.key.user]?.getD 0)

/-- No field of the key holds the separator of batch keys. -/
structure NulFree (k : JobKey) : Prop where
  user : Char.ofNat 0 ∉ k.user
  repo : Char.ofNat 0 ∉ k.repo
  commit : Char.ofNat 0 ∉ k.commit
  kernel : Char.ofNat 0 ∉ k.kernel
  env : Char.ofNat 0 ∉ k.env
  test : Char.ofNat 0 ∉ k.test

theorem eq_of_batchKey_eq {k k' : JobKey} (hk : NulFree k) (hk' : NulFree k')
    (h : batchKey k = batchKey k') : k' = { k with subtest := k'.subtest } := by
  simp only [batchKey, List.append_assoc, List.cons_append] at h
  obtain ⟨huser, h⟩ := Text.append_cons_inj hk.user hk'.user h
  obtain ⟨hrepo, h⟩ := Text.append_cons_inj hk.repo hk'.repo h
  obtain ⟨hcommit, h⟩ := Text.append_cons_inj hk.commit hk'.commit h
  obtain ⟨hkernel, h⟩ := Text.append_cons_inj hk.kernel hk'.kernel h
  obtain ⟨henv, htest⟩ := Text.append_cons_inj hk.env hk'.env h
  cases k'
  simp_all

def bootConfig : CiConfig where
  ktest := ⟨"/linux".toList, "/out".toList, "/ktest".toList, none, ∅, none, ∅, none⟩
  users := (∅ : TextMap (Option Userrc)).insert "user".toList (some
    ⟨(∅ : TextMap RcTestGroup).insert "boot".toList ⟨1, 0, 0, 0, ["boot.ktest".toList], [], ∅⟩,
      (∅ : TextMap RcBranch).insert "master".toList ⟨"linux".toList, ["boot".toList]⟩⟩)

def bootWorld : World where
  git := fun _ => some (fun _ => some ["c0ffee".toList])
  getSubtests := fun _ => ["boot".toList]

def bootKey : JobKey :=
  ⟨"user".toList, "linux".toList, "c0ffee".toList, [], [], "boot.ktest".toList, "boot".toList⟩

def servedConfig : CiConfig :=
  let repos := (∅ : TextMap RepoConfig).insert "linux".toList
    ⟨"/linux".toList, [], "git://host/linux".toList⟩
  { bootConfig with ktest := { bootConfig.ktest with repos := repos } }

def bootJob : Job := ⟨bootKey, 0, 0, 30⟩

theorem bootKey_nulFree : NulFree bootKey := by
  constructor <;> decide

end KtestCi
