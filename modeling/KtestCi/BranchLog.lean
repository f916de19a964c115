import KtestCi.BranchViews
import Mathlib.Data.List.Induction

/-!
# The log file of a branch

`write_branch_log` writes the entries of a branch to a new file and renames it over the old
one; `branchlog_get` reads them back. The name of the file is made of the user and the branch
with a dot in between, and so is that of every other user and branch which join to the same.
-/

namespace KtestCi

abbrev BranchLogDir := Text → Option BranchLogFile

def branchLogName (user branch : Text) : Text :=
  "branch.".toList ++ user ++ '.' :: branch ++ ".capnp".toList

def branchLogNewName (user branch : Text) : Text := branchLogName user branch ++ ".new".toList

def rawBranchEntry (e : BranchEntry) : RawBranchEntry where
  commitId := .text e.commitId
  message := .text e.message
  passed := e.passed
  failed := e.failed
  notrun := e.notrun
  failedToRun := e.failedToRun
  inprogress := e.inprogress
  unknown := e.unknown
  duration := e.duration

/-- How far a call of `write_branch_log` gets: the file is not created, not written to the end,
not renamed, or all is done. -/
inductive BranchLogOutcome where
  | createFails
  | writeFails
  | renameFails
  | done
  deriving DecidableEq

structure BranchLogWrite where
  user : Text
  branch : Text
  entries : List BranchEntry
  outcome : BranchLogOutcome

/-- The directory after a call. A rename takes the new file away. -/
def writeBranchLog (dir : BranchLogDir) (w : BranchLogWrite) : BranchLogDir :=
  let fname := branchLogName w.user w.branch
  let fnameNew := branchLogNewName w.user w.branch
  let log := BranchLogFile.message (w.entries.map rawBranchEntry)
  match w.outcome with
  | .createFails => dir
  | .writeFails => Function.update dir fnameNew (some .unreadable)
  | .renameFails => Function.update dir fnameNew (some log)
  | .done => Function.update (Function.update dir fname (some log)) fnameNew none

/-- A file that is not there is an error. -/
def branchlogGet (dir : BranchLogDir) (user branch : Text) : Parsed (List BranchEntry) :=
  match dir (branchLogName user branch) with
  | none => .error
  | some f => branchlogParse f

def BranchLogWrite.replaces (user branch : Text) (w : BranchLogWrite) : Bool :=
  w.outcome == .done && w.user ++ '.' :: w.branch == user ++ '.' :: branch

theorem readBranchEntry_rawBranchEntry (e : BranchEntry) : readBranchEntry (rawBranchEntry e) = some e := rfl

theorem branchlogParse_rawBranchEntry (entries : List BranchEntry) :
    branchlogParse (.message (entries.map rawBranchEntry)) = .ok entries := by
  have hread : (entries.map rawBranchEntry).mapM readBranchEntry = some entries := by
    induction entries with
    | nil => rfl
    | cons e es ih => simp [List.mapM_cons, readBranchEntry_rawBranchEntry, ih]
  rw [branchlogParse, hread]

theorem branchLogName_inj {user branch user' branch' : Text} :
    branchLogName user branch = branchLogName user' branch' ↔
      user ++ '.' :: branch = user' ++ '.' :: branch' := by
  unfold branchLogName
  generalize "branch.".toList = before
  generalize ".capnp".toList = after
  rw [List.append_cancel_right_eq, List.append_assoc, List.append_assoc, List.append_cancel_left_eq]

theorem getLast?_branchLogName (user branch : Text) : (branchLogName user branch).getLast? = some 'p' := by
  unfold branchLogName
  generalize "branch.".toList ++ user ++ '.' :: branch = before
  rw [List.getLast?_append]
  rfl

theorem getLast?_branchLogNewName (user branch : Text) :
    (branchLogNewName user branch).getLast? = some 'w' := by
  unfold branchLogNewName
  generalize branchLogName user branch = before
  rw [List.getLast?_append]
  rfl

theorem branchLogNewName_ne (user branch user' branch' : Text) :
    branchLogNewName user branch ≠ branchLogName user' branch' := by
  intro h
  have hlast := congrArg List.getLast? h
  rw [getLast?_branchLogName, getLast?_branchLogNewName] at hlast
  exact absurd (Option.some.inj hlast) (by decide)

theorem branchlogGet_write (dir : BranchLogDir) (w : BranchLogWrite) (user branch : Text) :
    branchlogGet (writeBranchLog dir w) user branch =
      if w.replaces user branch then .ok w.entries else branchlogGet dir user branch := by
  have hnew : ∀ (d : BranchLogDir) (f : Option BranchLogFile),
      Function.update d (branchLogNewName w.user w.branch) f (branchLogName user branch) =
        d (branchLogName user branch) := by
    intro d f
    exact Function.update_of_ne (branchLogNewName_ne _ _ _ _).symm f d
  rw [branchlogGet, branchlogGet, writeBranchLog, BranchLogWrite.replaces]
  cases w.outcome with
  | createFails => rfl
  | writeFails => simp [hnew]
  | renameFails => simp [hnew]
  | done =>
    by_cases hname : branchLogName user branch = branchLogName w.user w.branch
    · have hjoin : w.user ++ '.' :: w.branch = user ++ '.' :: branch := (branchLogName_inj.mp hname).symm
      simp only [hnew, hjoin, beq_self_eq_true, Bool.and_self, if_true]
      rw [hname, Function.update_self]
      exact branchlogParse_rawBranchEntry w.entries
    · have hjoin : ¬ w.user ++ '.' :: w.branch = user ++ '.' :: branch :=
        fun h => hname (branchLogName_inj.mpr h.symm)
      simp [hnew, Function.update_of_ne hname, hjoin]

/-- The log of a branch is the one that the last successful call for it has written, whatever
calls fail or are for other branches; only users and branches that join to the same text share
a log. -/
theorem branchlogGet_latest (dir : BranchLogDir) (ws : List BranchLogWrite) (user branch : Text) :
    branchlogGet (ws.foldl writeBranchLog dir) user branch =
      match (ws.filter (BranchLogWrite.replaces user branch)).getLast? with
      | some w => .ok w.entries
      | none => branchlogGet dir user branch := by
  induction ws using List.reverseRecOn with
  | nil => rfl
  | append_singleton ws w ih =>
    rw [List.foldl_append, List.foldl_cons, List.foldl_nil, branchlogGet_write, List.filter_append]
    cases hw : w.replaces user branch with
    | true => simp [hw]
    | false => simpa [hw] using ih

end KtestCi
