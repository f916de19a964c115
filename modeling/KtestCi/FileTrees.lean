import Mathlib.Data.List.Infix

/-!
# Directory trees

A tree is listed by its paths, each with what stands there; where a path is listed twice the
first entry counts. A directory is hollow when no file lies below it. Visiting the directories
with the lower ones first, and removing each one that is found empty, leaves no hollow one.
-/

namespace KtestCi
namespace FileTrees

inductive Node (β : Type*) where
  | dir
  | file (content : β)
  deriving DecidableEq, Repr

abbrev Tree (α β : Type*) := List (List α × Node β)

variable {α β : Type*} [DecidableEq α]

namespace Tree

def node (t : Tree α β) (p : List α) : Option (Node β) := t.lookup p

def paths (t : Tree α β) : List (List α) := t.map Prod.fst

/-- `rm -rf` of a path. -/
def remove (t : Tree α β) (p : List α) : Tree α β := t.filter (fun e => !decide (p <+: e.1))

def put (t : Tree α β) (p : List α) (n : Node β) : Tree α β := (p, n) :: t.filter (fun e => e.1 != p)

def mkdir (t : Tree α β) (p : List α) : Tree α β := if (t.node p).isSome then t else t.put p .dir

/-- Copy a tree to a path, over what is there. -/
def graft (t : Tree α β) (p : List α) (c : Tree α β) : Tree α β := c.map (fun e => (p ++ e.1, e.2)) ++ t

def below (t : Tree α β) (p : List α) : Tree α β :=
  (t.filter (fun e => decide (p <+: e.1))).map (fun e => (e.1.drop p.length, e.2))

/-- Move what is at one path to another one, in place of what is there. -/
def rename (t : Tree α β) (p q : List α) : Tree α β := ((t.remove p).remove q).graft q (t.below p)

def isEmptyDir [DecidableEq β] (t : Tree α β) (p : List α) : Bool :=
  t.node p == some .dir && t.paths.all (fun q => !decide (p <+: q) || q == p)

def rmdir [DecidableEq β] (t : Tree α β) (p : List α) : Tree α β := if t.isEmptyDir p then t.remove p else t

theorem mem_paths {t : Tree α β} {p : List α} : p ∈ t.paths ↔ (t.node p).isSome = true := by
  rw [node, List.lookup_isSome_iff, paths, List.mem_map]
  constructor
  · rintro ⟨e, he, rfl⟩
    exact ⟨e, he, beq_self_eq_true _⟩
  · rintro ⟨e, he, h⟩
    exact ⟨e, he, (beq_iff_eq.mp h).symm⟩

theorem node_filter (f : List α → Bool) (t : Tree α β) (p : List α) :
    node (t.filter (fun e => f e.1)) p = if f p then t.node p else none := by
  induction t with
  | nil => simp [node]
  | cons e t ih =>
    obtain ⟨q, n⟩ := e
    unfold node at ih ⊢
    by_cases hpq : p = q
    · subst hpq
      by_cases hf : f p = true
      · simp [hf]
      · rw [List.filter_cons_of_neg (by simpa using hf), ih]
        simp [hf]
    · have hne : (p == q) = false := by simpa using hpq
      rw [List.lookup_cons, hne, ← ih, List.filter_cons]
      split_ifs
      · rw [List.lookup_cons, hne]
      · rfl

@[simp] theorem node_remove (t : Tree α β) (p q : List α) :
    (t.remove p).node q = if p <+: q then none else t.node q := by
  rw [remove, node_filter (fun q => !decide (p <+: q))]
  by_cases h : p <+: q
  · simp [h]
  · simp [h]

@[simp] theorem node_put (t : Tree α β) (p q : List α) (n : Node β) :
    (t.put p n).node q = if q = p then some n else t.node q := by
  rw [put, node, List.lookup_cons]
  by_cases h : q = p
  · simp [h]
  · rw [beq_eq_false_iff_ne.mpr h, if_neg h]
    have hfilter := node_filter (fun q => q != p) t q
    rw [bne_iff_ne.mpr h, if_pos rfl] at hfilter
    exact hfilter

theorem node_mkdir (t : Tree α β) (p q : List α) :
    (t.mkdir p).node q = if q = p ∧ t.node p = none then some .dir else t.node q := by
  unfold mkdir
  cases h : t.node p with
  | none => simp
  | some n => simp

theorem node_map_append (p q : List α) (c : Tree α β) :
    node (c.map (fun e => (p ++ e.1, e.2))) q = if p <+: q then c.node (q.drop p.length) else none := by
  induction c with
  | nil => simp [node]
  | cons e c ih =>
    obtain ⟨r, n⟩ := e
    unfold node at ih ⊢
    rw [List.map_cons, List.lookup_cons, List.lookup_cons, ih]
    by_cases hq : p <+: q
    · obtain ⟨rest, rfl⟩ := hq
      by_cases hrest : rest = r
      · simp [hrest]
      · have hne : (p ++ rest == p ++ r) = false := by simpa using hrest
        simp [hne, beq_eq_false_iff_ne.mpr hrest]
    · have hne : (q == p ++ r) = false := by
        rw [beq_eq_false_iff_ne]
        rintro rfl
        exact hq (List.prefix_append p r)
      simp [hq, hne]

theorem node_graft (t c : Tree α β) (p q : List α) :
    (t.graft p c).node q = if p <+: q then (c.node (q.drop p.length)).or (t.node q) else t.node q := by
  have hmap := node_map_append p q c
  unfold node at hmap
  rw [graft, node, List.lookup_append, hmap]
  split_ifs
  · rfl
  · rfl

theorem node_below (t : Tree α β) (p q : List α) : (t.below p).node q = t.node (p ++ q) := by
  have hfilter := node_filter (fun r => decide (p <+: r)) t (p ++ q)
  rw [decide_eq_true (List.prefix_append p q), if_pos rfl] at hfilter
  rw [← hfilter, below]
  have hall : ∀ e ∈ t.filter (fun e => decide (p <+: e.1)), p <+: e.1 := by
    intro e he
    simpa using (List.mem_filter.mp he).2
  generalize t.filter (fun e => decide (p <+: e.1)) = es at hall
  induction es with
  | nil => rfl
  | cons e es ih =>
    rw [List.forall_mem_cons] at hall
    obtain ⟨⟨rest, hrest⟩, hall⟩ := hall
    have ih' := ih hall
    unfold node at ih' ⊢
    rw [List.map_cons, List.lookup_cons, List.lookup_cons, ih', ← hrest, List.drop_left]
    by_cases hq : q = rest
    · simp [hq]
    · have hne : (q == rest) = false := by simpa using hq
      have hne' : (p ++ q == p ++ rest) = false := by simpa using hq
      rw [hne, hne']

theorem node_rename (t : Tree α β) (p q r : List α) :
    (t.rename p q).node r =
      if q <+: r then t.node (p ++ r.drop q.length) else if p <+: r then none else t.node r := by
  rw [rename, node_graft, node_below]
  by_cases hq : q <+: r
  · simp [hq]
  · simp [hq]

/-- A directory without any file below it. -/
def Hollow (t : Tree α β) (p : List α) : Prop :=
  t.node p = some .dir ∧ ∀ q c, p <+: q → t.node q ≠ some (.file c)

variable [DecidableEq β]

theorem isEmptyDir_iff {t : Tree α β} {p : List α} :
    t.isEmptyDir p = true ↔ t.node p = some .dir ∧ ∀ q, p <+: q → q ≠ p → t.node q = none := by
  rw [isEmptyDir, Bool.and_eq_true, beq_iff_eq, List.all_eq_true]
  refine and_congr_right (fun _ => ⟨?_, ?_⟩)
  · intro h q hpq hne
    by_contra hsome
    have hq := h q (mem_paths.mpr (Option.isSome_iff_ne_none.mpr hsome))
    simp [hpq, hne] at hq
  · intro h q hq
    rw [mem_paths] at hq
    by_cases hpq : p <+: q
    · have heq : q = p := by
        by_contra hne
        simp [h q hpq hne] at hq
      simp [heq]
    · simp [hpq]

theorem node_rmdir (t : Tree α β) (p q : List α) :
    (t.rmdir p).node q = if q = p ∧ t.isEmptyDir p = true then none else t.node q := by
  unfold rmdir
  by_cases h : t.isEmptyDir p = true
  · rw [if_pos h, node_remove]
    by_cases hqp : q = p
    · simp [hqp, h]
    · have hnot : ¬ (q = p ∧ t.isEmptyDir p = true) := fun hc => hqp hc.1
      rw [if_neg hnot]
      split_ifs with hpq
      · exact ((isEmptyDir_iff.mp h).2 q hpq hqp).symm
      · rfl
  · simp [h]

theorem node_rmdir_file {t : Tree α β} {p q : List α} {c : β} :
    (t.rmdir p).node q = some (.file c) ↔ t.node q = some (.file c) := by
  rw [node_rmdir]
  split_ifs with h
  · have hdir : t.node q = some .dir := by
      rw [h.1]
      exact (isEmptyDir_iff.mp h.2).1
    simp [hdir]
  · rfl

/-- The hollow directories of a part of the tree are still to be visited, the lower ones first. -/
structure Prunes (S : List α → Prop) (t : Tree α β) (order : List (List α)) : Prop where
  postorder : order.Pairwise (fun p q => ¬ p <+: q)
  visits : ∀ p, S p → t.Hollow p → p ∈ order

theorem Prunes.visit {S : List α → Prop} {t : Tree α β} {p : List α} {order : List (List α)}
    (hS : ∀ q r, S q → q <+: r → S r) (h : Prunes S t (p :: order)) : Prunes S (t.rmdir p) order := by
  obtain ⟨hpost, hvisits⟩ := h
  rw [List.pairwise_cons] at hpost
  refine ⟨hpost.2, ?_⟩
  rintro q hq ⟨hdir, hnofile⟩
  have hdir' : t.node q = some .dir := by
    rw [node_rmdir] at hdir
    split_ifs at hdir
    exact hdir
  have hhollow : t.Hollow q := ⟨hdir', fun r c hqr hr => hnofile r c hqr (node_rmdir_file.mpr hr)⟩
  rcases List.mem_cons.mp (hvisits q hq hhollow) with rfl | hmem
  · -- it was not empty, so that a hollow directory below it was left behind
    exfalso
    have hnot : ¬ t.isEmptyDir q = true := by
      intro hempty
      simp [node_rmdir, hempty] at hdir
    rw [isEmptyDir_iff] at hnot
    push Not at hnot
    obtain ⟨r, hqr, hne, hsome⟩ := hnot hdir'
    obtain ⟨n, hn⟩ := Option.ne_none_iff_exists'.mp hsome
    cases n with
    | file c => exact hhollow.2 r c hqr hn
    | dir =>
      have hr : t.Hollow r := ⟨hn, fun r' c hrr => hhollow.2 r' c (hqr.trans hrr)⟩
      rcases List.mem_cons.mp (hvisits r (hS q r hq hqr) hr) with heq | hmem
      · exact hne heq
      · exact hpost.1 r hmem hqr
  · exact hmem

end Tree
end FileTrees
end KtestCi
