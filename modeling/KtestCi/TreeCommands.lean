import KtestCi.CrashScripts
import KtestCi.FileTrees

/-!
# Commands on directory trees

What the usual commands of a shell script do to a tree. Making a directory, removing an empty
one and moving something are done at once. A file that is being written can be left in any state,
and so can what lies below a path that is being filled; of a path that is being removed some part
can be left. Whatever happens, a command changes what is at its own paths only.
-/

namespace KtestCi
namespace FileTrees

variable {α β : Type*} [DecidableEq α] [DecidableEq β]

inductive Command (α β : Type*) where
  | remove (p : List α)
  | mkdir (p : List α)
  | install (p : List α) (content : β)
  | fill (p : List α) (content : Tree α β)
  | rename (p q : List α)
  | rmdir (p : List α)

namespace Command

def exec : Command α β → Tree α β → Tree α β
  | remove p, t => t.remove p
  | mkdir p, t => t.mkdir p
  | install p content, t => t.put p (.file content)
  | fill p content, t => t.graft p content
  | rename p q, t => t.rename p q
  | rmdir p, t => t.rmdir p

def touches : Command α β → List α → Bool
  | remove p, r => decide (p <+: r)
  | mkdir p, r => r == p
  | install p _, r => r == p
  | fill p _, r => decide (p <+: r)
  | rename p q, r => decide (p <+: r) || decide (q <+: r)
  | rmdir p, r => r == p

/-- What a command that is cut short may leave. -/
def leaves (k : Command α β) (t left : Tree α β) : Bool :=
  match k with
  | mkdir _ | rename _ _ | rmdir _ => left == t
  | remove p => (t.paths ++ left.paths).all (fun r =>
      left.node r == t.node r || (decide (p <+: r) && left.node r == none))
  | install p _ => (t.paths ++ left.paths).all (fun r =>
      left.node r == t.node r || (r == p && left.node r != some .dir))
  | fill _ _ => (t.paths ++ left.paths).all (fun r => k.touches r || left.node r == t.node r)

theorem exec_node {k : Command α β} {t : Tree α β} {r : List α} (h : k.touches r = false) :
    (k.exec t).node r = t.node r := by
  cases k with
  | remove p => simpa [exec, touches] using fun hp => absurd hp (of_decide_eq_false h)
  | mkdir p =>
    have hne : r ≠ p := by simpa [touches] using h
    simp [exec, Tree.node_mkdir, hne]
  | install p content =>
    have hne : r ≠ p := by simpa [touches] using h
    simp [exec, hne]
  | fill p content =>
    have hp : ¬ p <+: r := by simpa [touches] using h
    simp [exec, Tree.node_graft, hp]
  | rename p q =>
    have hpq : ¬ p <+: r ∧ ¬ q <+: r := by simpa [touches] using h
    simp [exec, Tree.node_rename, hpq]
  | rmdir p =>
    have hne : r ≠ p := by simpa [touches] using h
    simp [exec, Tree.node_rmdir, hne]

omit [DecidableEq β] in
theorem node_eq_of_notMem {t left : Tree α β} {r : List α} (h : r ∉ t.paths ++ left.paths) :
    left.node r = none ∧ t.node r = none := by
  rw [List.mem_append, not_or, Tree.mem_paths, Tree.mem_paths] at h
  simpa [and_comm] using h

theorem leaves_node {k : Command α β} {t left : Tree α β} {r : List α} (h : k.leaves t left = true)
    (hr : k.touches r = false) : left.node r = t.node r := by
  by_cases hmem : r ∈ t.paths ++ left.paths
  · cases k with
    | mkdir p | rename p q | rmdir p =>
      obtain rfl : left = t := by simpa [leaves] using h
      rfl
    | remove p =>
      have hp : ¬ p <+: r := by simpa [touches] using hr
      simpa [hp] using List.all_eq_true.mp h r hmem
    | install p content =>
      have hp : r ≠ p := by simpa [touches] using hr
      simpa [hp] using List.all_eq_true.mp h r hmem
    | fill p content => simpa [hr] using List.all_eq_true.mp h r hmem
  · obtain ⟨hleft, ht⟩ := node_eq_of_notMem hmem
    rw [hleft, ht]

theorem leaves_remove {p : List α} {t left : Tree α β} {r : List α}
    (h : (remove p : Command α β).leaves t left = true) : left.node r = t.node r ∨ left.node r = none := by
  by_cases hmem : r ∈ t.paths ++ left.paths
  · have hnode := List.all_eq_true.mp h r hmem
    simp only [Bool.or_eq_true, Bool.and_eq_true, beq_iff_eq] at hnode
    exact hnode.imp_right And.right
  · exact .inr (node_eq_of_notMem hmem).1

theorem leaves_install {p : List α} {content : β} {t left : Tree α β}
    (h : (install p content).leaves t left = true) (ht : t.node p ≠ some .dir) : left.node p ≠ some .dir := by
  by_cases hmem : p ∈ t.paths ++ left.paths
  · have hnode := List.all_eq_true.mp h p hmem
    simp only [Bool.or_eq_true, Bool.and_eq_true, beq_iff_eq, bne_iff_ne, true_and] at hnode
    rcases hnode with hnode | hnode
    · exact hnode ▸ ht
    · exact hnode
  · rw [(node_eq_of_notMem hmem).1]
    exact (Option.some_ne_none _).symm

end Command

def treeSemantics : CrashScripts.Semantics (Command α β) (Tree α β) where
  exec := Command.exec
  Cut k t left := k.leaves t left = true

open CrashScripts

theorem finish_node {ks : List (Command α β)} {t : Tree α β} {r : List α}
    (h : ∀ k ∈ ks, k.touches r = false) : (finish treeSemantics ks t).node r = t.node r :=
  @finish_of_kept _ _ treeSemantics (fun s => s.node r = t.node r) ks t
    (fun k hk _ hs => (Command.exec_node (h k hk)).trans hs) rfl

/-- `mkdir -p`: each directory on the way. -/
def mkdirs (p : List α) : List (Command α β) := p.inits.tail.map .mkdir

omit [DecidableEq β] in
theorem touches_of_mem_mkdirs {p r : List α} {k : Command α β} (hk : k ∈ mkdirs p)
    (hr : k.touches r = true) : r <+: p := by
  obtain ⟨q, hq, rfl⟩ := List.mem_map.mp hk
  have hrq : r = q := by simpa [Command.touches] using hr
  exact hrq ▸ (List.mem_inits _ _).mp (List.mem_of_mem_tail hq)

end FileTrees
end KtestCi
