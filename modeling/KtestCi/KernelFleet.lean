import KtestCi.EventRuns
import KtestCi.KernelBuild
import Mathlib.Logic.Function.Basic

/-!
# The kernel store and its copies

`kernel-store-producer` builds a store in a staging directory, drops the entries without a
manifest and the directories without files, and packs what is left unless it has no kernel. The
archive is copied to every machine that runs tests, unpacked beside the store there, and the two
are exchanged. The producer, and what it has started on a machine, can stop at any moment, and
the staging directory is still there for the next run. As long as what is left of a build is not
taken for a finished one, and deploys to one machine do not overlap, the store of a machine is at
every moment the one that it had at first or one that has been packed as a whole.
-/

namespace KtestCi
namespace KernelStore

open CrashScripts FileTrees

/-- `kernel-store.tar.zst`; an archive that was not written to its end cannot be unpacked. -/
inductive Archive where
  | whole (t : Store)
  | cut
  deriving DecidableEq

/-- `~/.ktest` of a machine: the archive, `kernels-new` and `kernels`. -/
structure Worker where
  archive : Option Archive
  staged : Option Store
  live : Option Store
  deriving DecidableEq

/-- What `deploy_to` does to a machine, first with `scp` and then with one script. -/
inductive Remote where
  | copy (a : Archive)
  | removeStaged
  | extract
  | makeLive
  | exchange

namespace Remote

def succeeds : Remote → Worker → Bool
  | extract, ⟨some (.whole _), _, _⟩ => true
  | extract, _ => false
  | exchange, w => w.staged.isSome && w.live.isSome
  | _, _ => true

def exec : Remote → Worker → Worker
  | copy a, w => { w with archive := some a }
  | removeStaged, w => { w with staged := none }
  | extract, ⟨some (.whole t), _, live⟩ => ⟨some (.whole t), some t, live⟩
  | extract, w => w
  | makeLive, w => { w with live := some (w.live.getD []) }
  | exchange, ⟨archive, some staged, some live⟩ => ⟨archive, some live, some staged⟩
  | exchange, w => w

def leaves : Remote → Worker → Worker → Bool
  | copy _, w, left => left == w || left == { w with archive := some .cut }
  | removeStaged, w, left | extract, w, left => left == { w with staged := left.staged }
  | makeLive, w, left | exchange, w, left => left == w

end Remote

def remoteSemantics : Semantics Remote Worker where
  exec := Remote.exec
  Cut k w left := k.leaves w left = true

def deployTo (a : Archive) : List Remote := [.copy a, .removeStaged, .extract, .makeLive, .exchange, .removeStaged]

/-- An entry of the store without the mark of a build that has succeeded. -/
def isHusk (t : Store) (d : Path) : Bool :=
  decide (IsEntry d) && t.node d == some .dir && (t.node (d ++ [manifest])).isNone

def husks (t : Store) : List Path := t.paths.filter (isHusk t)

def BelowUpstream (p : Path) : Prop := 2 ≤ p.length ∧ p.head? = some upstream

instance (p : Path) : Decidable (BelowUpstream p) := inferInstanceAs (Decidable (_ ∧ _))

def nrKernels (t : Store) : ℕ :=
  (t.paths.filter (fun p => decide (BelowUpstream p) && p.getLast? == some manifest)).length

/-- An order in which `find` visits the directories of the store before it deletes them. -/
def isVisit (t : Store) (order : List Path) : Bool :=
  decide (order.Pairwise (fun p q => ¬ p <+: q)) && order.all (fun p => decide (BelowUpstream p)) &&
    t.paths.all (fun p => !decide (BelowUpstream p) || t.node p != some .dir || order.contains p)

/-- Where `main` is. -/
inductive Position where
  | idle
  | building (todo : List (Command Text Content))
  | dropping (husks : List Path)
  | pruning (todo : List Path)
  | packing
  | deploying
  /-- With `--deploy-only`, so that the staging directory is left alone. -/
  | redeploying
  /-- After an error. -/
  | exiting

structure Fleet where
  staging : Store
  tarball : Option Archive
  /-- The stores that have been packed. -/
  packed : List Store
  position : Position
  workers : Text → Worker
  /-- What the deploys to a machine have still to run there. -/
  scripts : Text → List (List Remote)

inductive Event where
  | starts
  | fetches (t : Store)
  | builds (b : Build)
  | executes
  | stops (left : Store)
  | finds (found : List Path)
  | prunes (order : List Path)
  | spares
  | counts
  | packs
  | packStops
  | redeploys
  | deploys (w : Text)
  | remote (w : Text) (i : ℕ)
  | remoteStops (w : Text) (i : ℕ) (left : Worker)
  | exits
  | trapStops (left : Store)
  | killed

namespace Fleet

def executes (f : Fleet) : Option Fleet :=
  match f.position with
  | .building (k :: ks) => some { f with staging := k.exec f.staging, position := .building ks }
  | .dropping (d :: ds) => some { f with staging := f.staging.remove d, position := .dropping ds }
  | .pruning (d :: ds) => some { f with staging := f.staging.rmdir d, position := .pruning ds }
  | _ => none

/-- A command of the producer fails. A build that fails is tolerated, a removal ends the run. -/
def stops (f : Fleet) (left : Store) : Option Fleet :=
  match f.position with
  | .building (k :: _) =>
    if k.leaves f.staging left then some { f with staging := left, position := .building [] } else none
  | .dropping (d :: _) =>
    if (Command.remove d : Command Text Content).leaves f.staging left then
      some { f with staging := left, position := .exiting }
    else none
  | _ => none

/-- `find` cannot delete the directory that it has come to; that is tolerated. -/
def spares (f : Fleet) : Option Fleet :=
  match f.position with
  | .pruning (_ :: ds) => some { f with position := .pruning ds }
  | _ => none

/-- The end of a run, with the trap of one that packs. -/
def exits (f : Fleet) : Option Fleet :=
  match f.position with
  | .idle => none
  | .redeploying => some { f with position := .idle }
  | _ => some { f with staging := [], position := .idle }

/-- The trap does not come to its end. -/
def trapStops (f : Fleet) (left : Store) : Option Fleet :=
  match f.position with
  | .idle | .redeploying => none
  | _ => if (Command.remove [] : Command Text Content).leaves f.staging left then
      some { f with staging := left, position := .idle }
    else none

/-- `distro-kernel-fetch` leaves the upstream kernels alone. -/
def fetches (f : Fleet) (t : Store) : Option Fleet :=
  match f.position with
  | .building [] =>
    if (f.staging.paths ++ t.paths).all (fun p => !(p.head? == some upstream) || t.node p == f.staging.node p)
    then some { f with staging := t } else none
  | _ => none

def deploys (f : Fleet) (w : Text) : Option Fleet :=
  match f.position, f.tarball with
  | .deploying, some a | .redeploying, some a =>
    some { f with scripts := Function.update f.scripts w (f.scripts w ++ [deployTo a]) }
  | _, _ => none

/-- One of the deploys to a machine goes on with these commands. -/
def goesOn (scripts : List (List Remote)) (i : ℕ) (ks : List Remote) : List (List Remote) :=
  scripts.take i ++ (if ks.isEmpty then [] else [ks]) ++ scripts.drop (i + 1)

def remote (f : Fleet) (w : Text) (i : ℕ) : Option Fleet :=
  match (f.scripts w)[i]? with
  | some (k :: ks) => if k.succeeds (f.workers w) then
      some { f with
        workers := Function.update f.workers w (k.exec (f.workers w))
        scripts := Function.update f.scripts w (goesOn (f.scripts w) i ks) }
    else none
  | _ => none

def remoteStops (f : Fleet) (w : Text) (i : ℕ) (left : Worker) : Option Fleet :=
  match (f.scripts w)[i]? with
  | some (k :: _) => if k.leaves (f.workers w) left then
      some { f with
        workers := Function.update f.workers w left
        scripts := Function.update f.scripts w (goesOn (f.scripts w) i []) }
    else none
  | _ => none

def step (f : Fleet) : Event → Option Fleet
  | .starts => match f.position with
    | .idle => some { f with position := .building [] }
    | _ => none
  | .fetches t => f.fetches t
  | .builds b => match f.position with
    | .building [] => some { f with position := .building (buildOne f.staging b) }
    | _ => none
  | .executes => f.executes
  | .stops left => f.stops left
  | .finds found => match f.position with
    | .building [] => if found.all (isHusk f.staging) then some { f with position := .dropping found } else none
    | _ => none
  | .prunes order => match f.position with
    | .dropping [] => if isVisit f.staging order then some { f with position := .pruning order } else none
    | _ => none
  | .spares => f.spares
  | .counts => match f.position with
    | .pruning [] => some { f with position := if nrKernels f.staging = 0 then .exiting else .packing }
    | _ => none
  | .packs => match f.position with
    | .packing => some { f with
        tarball := some (.whole f.staging), packed := f.staging :: f.packed, position := .deploying }
    | _ => none
  | .packStops => match f.position with
    | .packing => some { f with tarball := some .cut, position := .exiting }
    | _ => none
  | .redeploys => match f.position with
    | .idle => if f.tarball.isSome then some { f with position := .redeploying } else none
    | _ => none
  | .deploys w => f.deploys w
  | .remote w i => f.remote w i
  | .remoteStops w i left => f.remoteStops w i left
  | .exits => f.exits
  | .trapStops left => f.trapStops left
  | .killed => some { f with position := .idle }

/-- A build has no manifest in the directory that it stages its entry in, `find` lists all husks, a
deploy finds no other one under way on its machine, and the trap comes to its end. -/
def undisturbed (f : Fleet) : Event → Bool
  | .builds b => decide (b.FreshStage f.staging)
  | .finds found => (husks f.staging).all found.contains
  | .deploys w => (f.scripts w).isEmpty
  | .trapStops _ => false
  | _ => true

end Fleet

def NoHusk (t : Store) : Prop := ∀ d, ¬ isHusk t d = true

/-- A store in which every kernel that is listed is there. -/
structure Sound (t : Store) : Prop where
  finished : Finished t
  noHusk : NoHusk t
  kernels : nrKernels t ≠ 0

theorem isHusk_iff {t : Store} {d : Path} :
    isHusk t d = true ↔ IsEntry d ∧ t.node d = some .dir ∧ t.node (d ++ [manifest]) = none := by
  simp [isHusk, and_assoc]

theorem NoHusk.marked {t : Store} {d : Path} (h : NoHusk t) (hd : IsEntry d) (hdir : t.node d = some .dir) :
    (t.node (d ++ [manifest])).isSome = true := by
  by_contra hnone
  exact h d (isHusk_iff.mpr ⟨hd, hdir, by simpa using hnone⟩)

/-- What the steps of `main` after the builds have achieved so far. -/
def Cleans (t : Store) : Position → Prop
  | .dropping ds => (∀ d, isHusk t d = true → d ∈ ds) ∧ ∀ d ∈ ds, IsEntry d ∧ t.node (d ++ [manifest]) = none
  | .pruning ds => NoHusk t ∧ ∀ d ∈ ds, BelowUpstream d
  | .packing => NoHusk t ∧ nrKernels t ≠ 0
  | _ => True

def Reached (t : Store) : Position → Prop
  | .building ks => Safe treeSemantics Finished ks t
  | p => Cleans t p

def PlainManifests (t : Store) : Prop := ∀ d, IsEntry d → t.node (d ++ [manifest]) ≠ some .dir

theorem Finished.plainManifests {t : Store} (h : Finished t) : PlainManifests t := by
  intro d hd hdir
  exact (h d hd (by simp [hdir])).manifest hdir

variable {t left : Store} {d : Path} {ds : List Path}

theorem cleans_dropping_next (h : Cleans t (.dropping (d :: ds))) : Cleans (t.remove d) (.dropping ds) := by
  obtain ⟨hlisted, hnone⟩ := h
  refine ⟨?_, fun e he => ?_⟩
  · intro e he
    rw [isHusk_iff] at he
    obtain ⟨hentry, hdir, hmanifest⟩ := he
    have hne : ¬ d <+: e := by
      intro habove
      simp [habove] at hdir
    rw [Tree.node_remove, if_neg hne] at hdir
    have hde : e ≠ d := by
      rintro rfl
      exact hne List.prefix_rfl
    rw [Tree.node_remove, if_neg (not_prefix_top (hnone d List.mem_cons_self).1 hentry hde manifest)] at hmanifest
    exact (List.mem_cons.mp (hlisted e (isHusk_iff.mpr ⟨hentry, hdir, hmanifest⟩))).resolve_left hde
  · obtain ⟨hentry, hmanifest⟩ := hnone e (List.mem_cons_of_mem _ he)
    refine ⟨hentry, ?_⟩
    rw [Tree.node_remove]
    split_ifs
    · rfl
    · exact hmanifest

/-- Removing an empty directory neither makes nor unmakes an entry. -/
theorem Finished.rmdir (h : Finished t) (d : Path) : Finished (t.rmdir d) := by
  intro e he hsome
  have hsome' : (t.node (e ++ [manifest])).isSome = true := by
    rw [Tree.node_rmdir] at hsome
    split_ifs at hsome
    · cases hsome
    · exact hsome
  obtain ⟨himage, hvmlinux, hconfig, hlink, hmanifest⟩ := h e he hsome'
  refine ⟨fun arch ktestArch h₂ hparse hinstalls => Tree.node_rmdir_file.mpr (himage arch ktestArch h₂ hparse hinstalls),
    Tree.node_rmdir_file.mpr hvmlinux, Tree.node_rmdir_file.mpr hconfig, Tree.node_rmdir_file.mpr hlink, ?_⟩
  rw [Tree.node_rmdir]
  split_ifs
  · exact (Option.some_ne_none _).symm
  · exact hmanifest

theorem NoHusk.rmdir (hno : NoHusk t) (h : PlainManifests t) (d : Path) : NoHusk (t.rmdir d) := by
  intro e he
  rw [isHusk_iff] at he
  obtain ⟨hentry, hdir, hnone⟩ := he
  have hdir' : t.node e = some .dir := by
    rw [Tree.node_rmdir] at hdir
    split_ifs at hdir
    exact hdir
  obtain ⟨n, hn⟩ := Option.isSome_iff_exists.mp (hno.marked hentry hdir')
  cases n with
  | dir => exact h e hentry hn
  | file c =>
    rw [Tree.node_rmdir_file.mpr hn] at hnone
    cases hnone

theorem BelowUpstream.mono {p q : Path} (h : BelowUpstream p) (hpq : p <+: q) : BelowUpstream q := by
  obtain ⟨rest, rfl⟩ := hpq
  refine ⟨h.1.trans (by simp), ?_⟩
  rw [List.head?_append, h.2]
  rfl

theorem mem_husks : d ∈ husks t ↔ isHusk t d = true := by
  rw [husks, List.mem_filter, Tree.mem_paths, and_iff_right_iff_imp]
  intro hd
  simp [(isHusk_iff.mp hd).2.1]

theorem cleans_found {found : List Path} (hfound : found.all (isHusk t) = true)
    (hall : (husks t).all found.contains = true) : Cleans t (.dropping found) := by
  refine ⟨?_, ?_⟩
  · intro d hd
    simpa using List.all_eq_true.mp hall d (mem_husks.mpr hd)
  · intro d hd
    have hhusk := isHusk_iff.mp (List.all_eq_true.mp hfound d hd)
    exact ⟨hhusk.1, hhusk.2.2⟩

theorem cleans_spared (h : Cleans t (.pruning (d :: ds))) : Cleans t (.pruning ds) :=
  ⟨h.1, fun e he => h.2 e (List.mem_cons_of_mem _ he)⟩

theorem cleans_pruning_next (h : Cleans t (.pruning (d :: ds))) (hplain : PlainManifests t) :
    Cleans (t.rmdir d) (.pruning ds) :=
  ⟨h.1.rmdir hplain d, (cleans_spared h).2⟩

theorem prunes_of_isVisit {order : List Path} (h : isVisit t order = true) :
    Tree.Prunes BelowUpstream t order ∧ ∀ p ∈ order, BelowUpstream p := by
  rw [isVisit, Bool.and_eq_true, Bool.and_eq_true, decide_eq_true_eq, List.all_eq_true, List.all_eq_true] at h
  refine ⟨⟨h.1.1, fun p hp hhollow => ?_⟩, fun p hp => of_decide_eq_true (h.1.2 p hp)⟩
  have hmem : p ∈ t.paths := Tree.mem_paths.mpr (by simp [hhollow.1])
  simpa [hp, hhollow.1] using h.2 p hmem

theorem cleans_visit {order : List Path} (h : Cleans t (.dropping [])) (hvisit : isVisit t order = true) :
    Cleans t (.pruning order) :=
  ⟨fun d hd => List.not_mem_nil (h.1 d hd), (prunes_of_isVisit hvisit).2⟩

/-- The store of a machine: the one it had, or one that was packed. Where there was none, an
empty directory is made first. -/
def Serves (had : Option Store) (packed : List Store) (w : Worker) : Prop :=
  w.live = had ∨ (had = none ∧ w.live = some []) ∨ ∃ t ∈ packed, w.live = some t

section Serves

variable {had : Option Store} {packed : List Store} {w : Worker}

theorem Serves.mono {packed' : List Store} (h : Serves had packed w) (hsub : packed ⊆ packed') :
    Serves had packed' w := by
  rcases h with h | h | ⟨t, ht, hlive⟩
  · exact .inl h
  · exact .inr (.inl h)
  · exact .inr (.inr ⟨t, hsub ht, hlive⟩)

theorem Serves.cons {k : Remote} {ks : List Remote} (h : Serves had packed w)
    (hcut : ∀ left, k.leaves w left = true → left.live = w.live)
    (hks : Safe remoteSemantics (Serves had packed) ks (k.exec w)) :
    Safe remoteSemantics (Serves had packed) (k :: ks) w :=
  ⟨h, fun left hleft => by simpa only [Serves, hcut left hleft] using h, hks⟩

theorem Remote.leaves_live {k : Remote} {left : Worker} (h : k.leaves w left = true) : left.live = w.live := by
  cases k with
  | copy a =>
    simp only [Remote.leaves, Bool.or_eq_true, beq_iff_eq] at h
    rcases h with rfl | rfl <;> rfl
  | removeStaged | extract => rw [eq_of_beq h]
  | makeLive | exchange => rw [eq_of_beq h]

theorem Serves.makeLive (h : Serves had packed w) :
    Serves had packed { w with live := some (w.live.getD []) } := by
  cases hlive : w.live with
  | some t => simpa [Serves, hlive] using h
  | none =>
    have hnone : had = none := by
      rcases h with h | h | ⟨t, -, h⟩
      · exact h ▸ hlive
      · exact h.1
      · simp [hlive] at h
    exact .inr (.inl ⟨hnone, rfl⟩)

/-- A deploy exchanges the store for the one in the archive, at once. -/
theorem safe_deployTo {a : Archive} (h : Serves had packed w)
    (ha : ∀ t, a = .whole t → t ∈ packed) : Safe remoteSemantics (Serves had packed) (deployTo a) w := by
  have hlive : ∀ {w' : Worker}, w'.live = w.live → Serves had packed w' := by
    intro w' heq
    simpa only [Serves, heq] using h
  have hmade : Serves had packed { w with live := some (w.live.getD []) } := h.makeLive
  have hmade' : ∀ {w' : Worker}, w'.live = some (w.live.getD []) → Serves had packed w' := by
    intro w' heq
    simpa only [Serves, heq] using hmade
  cases a with
  | whole t =>
    have hnew : ∀ {w' : Worker}, w'.live = some t → Serves had packed w' :=
      fun heq => .inr (.inr ⟨t, ha t rfl, heq⟩)
    refine h.cons (fun _ => Remote.leaves_live) ?_
    refine Serves.cons (hlive rfl) (fun _ => Remote.leaves_live) ?_
    refine Serves.cons (hlive rfl) (fun _ => Remote.leaves_live) ?_
    refine Serves.cons (hlive rfl) (fun _ => Remote.leaves_live) ?_
    refine Serves.cons (hmade' rfl) (fun _ => Remote.leaves_live) ?_
    refine Serves.cons (hnew rfl) (fun _ => Remote.leaves_live) ?_
    exact hnew rfl
  | cut =>
    -- the script does not come further than to `tar`
    refine h.cons (fun _ => Remote.leaves_live) ?_
    refine Serves.cons (hlive rfl) (fun _ => Remote.leaves_live) ?_
    refine Serves.cons (hlive rfl) (fun _ => Remote.leaves_live) ?_
    refine Serves.cons (hlive rfl) (fun _ => Remote.leaves_live) ?_
    refine Serves.cons (hmade' rfl) (fun _ => Remote.leaves_live) ?_
    refine Serves.cons (hmade' rfl) (fun _ => Remote.leaves_live) ?_
    exact hmade' rfl

end Serves

/-- At most one deploy runs on a machine, and what is relied on there is safe along it. -/
structure Alone (R : Worker → Prop) (scripts : List (List Remote)) (w : Worker) : Prop where
  now : R w
  length_le : scripts.length ≤ 1
  safe : ∀ ks ∈ scripts, Safe remoteSemantics R ks w

namespace Alone

variable {R R' : Worker → Prop} {scripts : List (List Remote)} {w : Worker} {k : Remote} {ks : List Remote} {i : ℕ}

theorem mono (h : Alone R scripts w) (hR : ∀ w, R w → R' w) : Alone R' scripts w :=
  ⟨hR w h.now, h.length_le, fun ks hks => (h.safe ks hks).mono hR⟩

theorem goesOn (h : Alone R scripts w) (hi : i < scripts.length) {w' : Worker}
    (hsafe : Safe remoteSemantics R ks w') : Alone R (Fleet.goesOn scripts i ks) w' := by
  obtain rfl : i = 0 := by
    have hle := h.length_le
    omega
  have hdrop : scripts.drop 1 = [] := List.drop_eq_nil_of_le h.length_le
  rw [Fleet.goesOn, hdrop]
  refine ⟨hsafe.now, ?_, ?_⟩
  · split_ifs <;> simp
  · intro ks' hks'
    split_ifs at hks'
    · simp at hks'
    · obtain rfl : ks' = ks := by simpa using hks'
      exact hsafe

theorem executes (h : Alone R scripts w) (hi : scripts[i]? = some (k :: ks)) :
    Alone R (Fleet.goesOn scripts i ks) (k.exec w) :=
  h.goesOn (List.getElem?_eq_some_iff.mp hi).1 (h.safe _ (List.mem_of_getElem? hi)).next

theorem stops {left : Worker} (h : Alone R scripts w) (hi : scripts[i]? = some (k :: ks))
    (hleft : k.leaves w left = true) : Alone R (Fleet.goesOn scripts i []) left :=
  h.goesOn (List.getElem?_eq_some_iff.mp hi).1 ((h.safe _ (List.mem_of_getElem? hi)).cut hleft)

end Alone

/-- What holds at every moment of the producer's runs. -/
structure Fleet.Inv (had : Text → Option Store) (f : Fleet) : Prop where
  staging : Finished f.staging
  reached : Reached f.staging f.position
  tarball : ∀ t, f.tarball = some (.whole t) → t ∈ f.packed
  packed : ∀ t ∈ f.packed, Sound t
  workers : ∀ w, Alone (Serves (had w) f.packed) (f.scripts w) (f.workers w)

/-- Nothing is under way. A staging directory can be left of an earlier run, and an archive. -/
structure Fleet.AtRest (f : Fleet) : Prop where
  position : f.position = .idle
  staging : Finished f.staging
  tarball : ∀ t, f.tarball = some (.whole t) → t ∈ f.packed
  packed : ∀ t ∈ f.packed, Sound t
  scripts : ∀ w, f.scripts w = []

variable {had : Text → Option Store} {f f' : Fleet}

namespace Fleet.Inv

theorem moves (h : f.Inv had) {p : Position} (hp : Reached f.staging p) : Fleet.Inv had { f with position := p } :=
  ⟨h.staging, hp, h.tarball, h.packed, h.workers⟩

theorem stages (h : f.Inv had) {p : Position} (hfinished : Finished t) (hp : Reached t p) :
    Fleet.Inv had { f with staging := t, position := p } :=
  ⟨hfinished, hp, h.tarball, h.packed, h.workers⟩

theorem executes (h : f.Inv had) (hstep : f.executes = some f') : f'.Inv had := by
  have hreached := h.reached
  unfold Fleet.executes at hstep
  split at hstep
  · next k ks hpos =>
    rw [hpos] at hreached
    exact Option.some.inj hstep ▸ h.stages hreached.next.now hreached.next
  · next d ds hpos =>
    rw [hpos] at hreached
    have hnone := hreached.2 d List.mem_cons_self
    exact Option.some.inj hstep ▸ h.stages (h.staging.remove hnone.1.1).1 (cleans_dropping_next hreached)
  · next d ds hpos =>
    rw [hpos] at hreached
    exact Option.some.inj hstep ▸
      h.stages (h.staging.rmdir d) (cleans_pruning_next hreached h.staging.plainManifests)
  · cases hstep

theorem stops (h : f.Inv had) (hstep : f.stops left = some f') : f'.Inv had := by
  have hreached := h.reached
  unfold Fleet.stops at hstep
  split at hstep
  · next k ks hpos =>
    obtain ⟨hleft, rfl⟩ := EventRuns.guard_eq_some hstep
    rw [hpos] at hreached
    have hfinished : Finished left := hreached.cut hleft
    exact h.stages hfinished hfinished
  · next d ds hpos =>
    obtain ⟨hleft, rfl⟩ := EventRuns.guard_eq_some hstep
    rw [hpos] at hreached
    obtain ⟨hentry, hnone⟩ := hreached.2 d List.mem_cons_self
    exact h.stages (Midway.cut_remove ⟨h.staging, hnone⟩ hentry.1 hleft) trivial
  · cases hstep

theorem spares (h : f.Inv had) (hstep : f.spares = some f') : f'.Inv had := by
  have hreached := h.reached
  unfold Fleet.spares at hstep
  split at hstep
  · next d ds hpos =>
    rw [hpos] at hreached
    exact Option.some.inj hstep ▸ h.moves (cleans_spared hreached)
  · cases hstep

theorem fetches (h : f.Inv had) (hstep : f.fetches t = some f') : f'.Inv had := by
  unfold Fleet.fetches at hstep
  split at hstep
  · next hpos =>
    obtain ⟨hsame, rfl⟩ := EventRuns.guard_eq_some hstep
    have hnode : ∀ p, p.head? = some upstream → t.node p = f.staging.node p := by
      intro p hp
      by_cases hmem : p ∈ f.staging.paths ++ t.paths
      · simpa [hp] using List.all_eq_true.mp hsame p hmem
      · obtain ⟨ht, hf⟩ := Command.node_eq_of_notMem hmem
        rw [ht, hf]
    have hfinished : Finished t := by
      intro d hd hsome
      have htop : ∀ n, t.node (d ++ [n]) = f.staging.node (d ++ [n]) := by
        intro n
        refine hnode _ ?_
        rw [List.head?_append, hd.2]
        rfl
      rw [htop] at hsome
      exact (h.staging d hd hsome).congr htop
    exact ⟨hfinished, by rw [hpos]; exact hfinished, h.tarball, h.packed, h.workers⟩
  · cases hstep

theorem worker {w : Text} (h : f.Inv had) {x : Worker} {scripts : List (List Remote)}
    (hx : Alone (Serves (had w) f.packed) scripts x) : Fleet.Inv had { f with
      workers := Function.update f.workers w x
      scripts := Function.update f.scripts w scripts } := by
  refine ⟨h.staging, h.reached, h.tarball, h.packed, fun w' => ?_⟩
  by_cases hw : w' = w
  · subst hw
    simpa only [Function.update_self] using hx
  · simpa only [Function.update_of_ne hw] using h.workers w'

theorem deploys {w : Text} (h : f.Inv had) (hok : (f.scripts w).isEmpty = true)
    (hstep : f.deploys w = some f') : f'.Inv had := by
  have hnone : f.scripts w = [] := List.isEmpty_iff.mp hok
  have hbegin : ∀ a, f.tarball = some a →
      Fleet.Inv had { f with scripts := Function.update f.scripts w (f.scripts w ++ [deployTo a]) } := by
    intro a ha
    have hsafe := safe_deployTo (h.workers w).now (fun t ht => h.tarball t (ht ▸ ha))
    have hdeploy := @worker _ _ w h (f.workers w) [deployTo a]
      ⟨(h.workers w).now, le_rfl, fun ks hks => List.mem_singleton.mp hks ▸ hsafe⟩
    rw [hnone, List.nil_append]
    rwa [Function.update_eq_self] at hdeploy
  unfold Fleet.deploys at hstep
  split at hstep
  · next ha => exact Option.some.inj hstep ▸ hbegin _ ha
  · next ha => exact Option.some.inj hstep ▸ hbegin _ ha
  · cases hstep

theorem remote {w : Text} {i : ℕ} (h : f.Inv had) (hstep : f.remote w i = some f') : f'.Inv had := by
  unfold Fleet.remote at hstep
  split at hstep
  · next k ks hscript =>
    obtain ⟨-, rfl⟩ := EventRuns.guard_eq_some hstep
    exact h.worker ((h.workers w).executes hscript)
  · cases hstep

theorem remoteStops {w : Text} {i : ℕ} {left : Worker} (h : f.Inv had)
    (hstep : f.remoteStops w i left = some f') : f'.Inv had := by
  unfold Fleet.remoteStops at hstep
  split at hstep
  · next k ks hscript =>
    obtain ⟨hleft, rfl⟩ := EventRuns.guard_eq_some hstep
    exact h.worker ((h.workers w).stops hscript hleft)
  · cases hstep

theorem packs (h : f.Inv had) (hpos : f.position = .packing) : Fleet.Inv had { f with
    tarball := some (.whole f.staging), packed := f.staging :: f.packed, position := .deploying } := by
  have hreached := h.reached
  rw [hpos] at hreached
  have hsound : Sound f.staging := ⟨h.staging, hreached.1, hreached.2⟩
  refine ⟨h.staging, trivial, ?_, ?_, fun w => (h.workers w).mono (fun _ hs => hs.mono (List.subset_cons_self _ _))⟩
  · intro t ht
    simp only [Option.some.injEq, Archive.whole.injEq] at ht
    exact ht ▸ List.mem_cons_self
  · exact List.forall_mem_cons.mpr ⟨hsound, h.packed⟩

theorem exits (h : f.Inv had) (hstep : f.exits = some f') : f'.Inv had := by
  unfold Fleet.exits at hstep
  split at hstep
  · cases hstep
  · exact Option.some.inj hstep ▸ h.moves trivial
  · exact Option.some.inj hstep ▸ h.stages finished_nil trivial

/-- The producer and its deploys keep the invariant. -/
theorem step {e : Event} (hok : f.undisturbed e = true) (h : f.Inv had) (hstep : f.step e = some f') :
    f'.Inv had := by
  have hreached := h.reached
  cases e with
  | starts =>
    simp only [Fleet.step] at hstep
    split at hstep
    · exact Option.some.inj hstep ▸ h.moves h.staging
    · cases hstep
  | fetches t => exact h.fetches hstep
  | builds b =>
    simp only [Fleet.step] at hstep
    split at hstep
    · exact Option.some.inj hstep ▸ h.moves (b.buildOne_safe h.staging (of_decide_eq_true hok))
    · cases hstep
  | executes => exact h.executes hstep
  | stops left => exact h.stops hstep
  | finds found =>
    simp only [Fleet.step] at hstep
    split at hstep
    · obtain ⟨hfound, rfl⟩ := EventRuns.guard_eq_some hstep
      exact h.moves (cleans_found hfound hok)
    · cases hstep
  | prunes order =>
    simp only [Fleet.step] at hstep
    split at hstep
    · next hpos =>
      obtain ⟨hvisit, rfl⟩ := EventRuns.guard_eq_some hstep
      rw [hpos] at hreached
      exact h.moves (cleans_visit hreached hvisit)
    · cases hstep
  | spares => exact h.spares hstep
  | counts =>
    simp only [Fleet.step] at hstep
    split at hstep
    · next hpos =>
      rw [hpos] at hreached
      refine Option.some.inj hstep ▸ h.moves ?_
      split_ifs with hkernels
      · trivial
      · exact ⟨hreached.1, hkernels⟩
    · cases hstep
  | packs =>
    simp only [Fleet.step] at hstep
    split at hstep
    · next hpos => exact Option.some.inj hstep ▸ h.packs hpos
    · cases hstep
  | packStops =>
    simp only [Fleet.step] at hstep
    split at hstep
    · exact Option.some.inj hstep ▸ ⟨h.staging, trivial, by simp, h.packed, h.workers⟩
    · cases hstep
  | redeploys =>
    simp only [Fleet.step] at hstep
    split at hstep
    · obtain ⟨-, rfl⟩ := EventRuns.guard_eq_some hstep
      exact h.moves trivial
    · cases hstep
  | deploys w => exact h.deploys hok hstep
  | remote w i => exact h.remote hstep
  | remoteStops w i left => exact h.remoteStops hstep
  | exits => exact h.exits hstep
  | trapStops left => cases hok
  | killed => exact Option.some.inj hstep ▸ h.moves trivial

theorem run {f₀ f : Fleet} {es : List Event} (hrest : f₀.AtRest)
    (hok : EventRuns.along Fleet.undisturbed Fleet.step f₀ es = true)
    (hrun : EventRuns.run Fleet.step f₀ es = some f) : f.Inv (fun w => (f₀.workers w).live) := by
  refine EventRuns.run_invariant_along (fun _ _ _ hok h hstep => h.step hok hstep) hok ?_ hrun
  refine ⟨hrest.staging, by rw [hrest.position]; trivial, hrest.tarball, hrest.packed, fun w => ?_⟩
  rw [hrest.scripts]
  exact ⟨.inl rfl, by simp, by simp⟩

end Fleet.Inv

def firstFleet : Fleet := ⟨[], none, [], .idle, fun _ => ⟨none, none, none⟩, fun _ => []⟩

theorem firstFleet_atRest : firstFleet.AtRest :=
  ⟨rfl, finished_nil, fun _ h => (by cases h), fun _ h => (by cases h), fun _ => rfl⟩

/-- A run that is killed when a boot image has been installed, and one that builds another kernel. -/
def killedThenBuilt : List Event :=
  [.starts, .builds (buildOf "kasan".toList "x86_64".toList "3".toList)] ++ List.replicate 14 .executes ++
    [.killed, .starts, .builds (buildOf "stable".toList "x86_64".toList "7".toList)] ++
      List.replicate 35 .executes

/-- The directories after the husk has been dropped, the lower ones first. -/
def visit : List Path :=
  let entry := [upstream, "stable".toList, "x86_64".toList, "7.1".toList]
  let modules := entry ++ [lib, "modules".toList]
  [modules ++ ["7.1.0".toList, "build".toList], modules ++ ["7.1.0".toList], modules, entry ++ [lib], entry,
    entry.take 3, entry.take 2, [upstream, "kasan".toList, "x86_64".toList], [upstream, "kasan".toList]]

def cleaned : List Event := [.executes, .prunes visit] ++ List.replicate 9 .executes ++ [.counts]

def killedHusk : Path := [upstream, "kasan".toList, "x86_64".toList, "7.1.work.3".toList]

def killedThenPacked : List Event := killedThenBuilt ++ .finds [killedHusk] :: (cleaned ++ [.packs])

/-- Of the entry of a finished build the trap has removed the boot image when it is cut short. -/
def afterCutTrap : Store :=
  (finish treeSemantics (buildOne [] (buildOf "stable".toList "x86_64".toList "7".toList)) []).filter
    (fun e => e.1.getLast? != some vmlinuz)

/-- The next run takes what is left for a finished build, and packs it. -/
theorem cut_trap_packs_husk : ∃ f t, EventRuns.run Fleet.step firstFleet
      ([.starts, .builds (buildOf "stable".toList "x86_64".toList "7".toList)] ++ List.replicate 35 .executes ++
        [.trapStops afterCutTrap, .starts, .finds [], .prunes (visit.take 7)] ++ List.replicate 7 .executes ++
          [.counts, .packs]) = some f ∧ t ∈ f.packed ∧ ¬ Sound t := by
  have hsome : (EventRuns.run Fleet.step firstFleet
      ([.starts, .builds (buildOf "stable".toList "x86_64".toList "7".toList)] ++ List.replicate 35 .executes ++
        [.trapStops afterCutTrap, .starts, .finds [], .prunes (visit.take 7)] ++ List.replicate 7 .executes ++
          [.counts, .packs])).map Fleet.packed = some [afterCutTrap] := by
    decide +kernel
  obtain ⟨f, hrun, hpacked⟩ := Option.map_eq_some_iff.mp hsome
  refine ⟨f, afterCutTrap, hrun, by simp [hpacked], ?_⟩
  intro hsound
  have hcomplete := hsound.finished [upstream, "stable".toList, "x86_64".toList, "7.1".toList] (by decide)
    (by decide +kernel)
  have himage := hcomplete.image "x86_64".toList "x86_64".toList rfl (by decide) (by decide)
  exact absurd himage (by decide +kernel)

/-- Everything is as it was, but for the husks and for directories below `upstream`. -/
structure Cleaned (t t' : Store) : Prop where
  files : ∀ q c, t.node q = some (.file c) → (∀ d, isHusk t d = true → ¬ d <+: q) → t'.node q = some (.file c)
  others : ∀ p, ¬ BelowUpstream p → t'.node p = t.node p
  nothingNew : ∀ p n, t'.node p = some n → t.node p = some n

theorem Cleaned.refl (t : Store) : Cleaned t t := ⟨fun _ _ h _ => h, fun _ _ => rfl, fun _ _ h => h⟩

theorem Cleaned.remove {t t' : Store} {d : Path} (h : Cleaned t t') (hd : isHusk t d = true) :
    Cleaned t (t'.remove d) := by
  have hentry := (isHusk_iff.mp hd).1
  refine ⟨?_, ?_, ?_⟩
  · intro q c hq hout
    rw [Tree.node_remove, if_neg (hout d hd)]
    exact h.files q c hq hout
  · intro p hp
    have hdp : ¬ d <+: p := by
      intro hdp
      have hbelow : BelowUpstream d := ⟨by rw [hentry.1]; decide, hentry.2⟩
      exact hp (hbelow.mono hdp)
    rw [Tree.node_remove, if_neg hdp, h.others p hp]
  · intro p n hn
    rw [Tree.node_remove] at hn
    split_ifs at hn
    exact h.nothingNew p n hn

theorem Cleaned.rmdir {t t' : Store} {d : Path} (h : Cleaned t t') (hd : BelowUpstream d) :
    Cleaned t (t'.rmdir d) := by
  refine ⟨fun q c hq hout => Tree.node_rmdir_file.mpr (h.files q c hq hout), ?_, ?_⟩
  · intro p hp
    have hpd : p ≠ d := by
      rintro rfl
      exact hp hd
    rw [Tree.node_rmdir, if_neg (fun hc => hpd hc.1), h.others p hp]
  · intro p n hn
    rw [Tree.node_rmdir] at hn
    split_ifs at hn
    exact h.nothingNew p n hn

theorem Cleaned.plainManifests {t t' : Store} (h : Cleaned t t') (ht : PlainManifests t) : PlainManifests t' :=
  fun d hd hdir => ht d hd (h.nothingNew _ _ hdir)

def Event.cleans : Event → Bool
  | .executes | .prunes _ | .spares | .counts => true
  | _ => false

def Event.isSpares : Event → Bool
  | .spares => true
  | _ => false

structure Cleaning (t : Store) (packed : List Store) (f : Fleet) : Prop where
  cleaned : Cleaned t f.staging
  packed : f.packed = packed
  cleans : Cleans f.staging f.position
  notBuilding : ∀ ks, f.position ≠ .building ks
  husks : ∀ ds, f.position = .dropping ds → ∀ d ∈ ds, isHusk t d = true

theorem Cleaning.executes {packed : List Store} (h : Cleaning t packed f) (hplain : PlainManifests t)
    (hstep : f.executes = some f') : Cleaning t packed f' := by
  have hcleans := h.cleans
  unfold Fleet.executes at hstep
  split at hstep
  · next k ks hpos => exact absurd hpos (h.notBuilding _)
  · next d ds hpos =>
    obtain rfl := Option.some.inj hstep
    have hhusks := h.husks _ hpos
    rw [hpos] at hcleans
    refine ⟨h.cleaned.remove (hhusks d List.mem_cons_self), h.packed, cleans_dropping_next hcleans, by simp, ?_⟩
    rintro ds' hds' e he
    obtain rfl : ds = ds' := by simpa using hds'
    exact hhusks e (List.mem_cons_of_mem _ he)
  · next d ds hpos =>
    obtain rfl := Option.some.inj hstep
    rw [hpos] at hcleans
    exact ⟨h.cleaned.rmdir (hcleans.2 d List.mem_cons_self), h.packed,
      cleans_pruning_next hcleans (h.cleaned.plainManifests hplain), by simp, by simp⟩
  · cases hstep

theorem Cleaning.step {packed : List Store} {e : Event} (he : e.cleans = true) (hplain : PlainManifests t)
    (h : Cleaning t packed f) (hstep : f.step e = some f') : Cleaning t packed f' := by
  have hcleans := h.cleans
  cases e with
  | executes => exact h.executes hplain hstep
  | prunes order =>
    simp only [Fleet.step] at hstep
    split at hstep
    · next hpos =>
      obtain ⟨hvisit, rfl⟩ := EventRuns.guard_eq_some hstep
      rw [hpos] at hcleans
      exact ⟨h.cleaned, h.packed, cleans_visit hcleans hvisit, by simp, by simp⟩
    · cases hstep
  | spares =>
    simp only [Fleet.step, Fleet.spares] at hstep
    split at hstep
    · next d ds hpos =>
      obtain rfl := Option.some.inj hstep
      rw [hpos] at hcleans
      exact ⟨h.cleaned, h.packed, cleans_spared hcleans, by simp, by simp⟩
    · cases hstep
  | counts =>
    simp only [Fleet.step] at hstep
    split at hstep
    · next hpos =>
      obtain rfl := Option.some.inj hstep
      rw [hpos] at hcleans
      by_cases hkernels : nrKernels f.staging = 0
      · exact ⟨h.cleaned, h.packed, by simp [hkernels, Cleans], by simp [hkernels], by simp [hkernels]⟩
      · exact ⟨h.cleaned, h.packed, by simpa [hkernels, Cleans] using hcleans.1, by simp [hkernels],
          by simp [hkernels]⟩
    · cases hstep
  | starts | fetches | builds | stops | finds | packs | packStops | redeploys | deploys | remote | remoteStops
  | exits | trapStops | killed => cases he

theorem cleaning_of_finds {found : List Path} (hall : (husks f.staging).all found.contains = true)
    (hstep : f.step (.finds found) = some f') : Cleaning f.staging f.packed f' := by
  simp only [Fleet.step] at hstep
  split at hstep
  · obtain ⟨hfound, rfl⟩ := EventRuns.guard_eq_some hstep
    refine ⟨Cleaned.refl _, rfl, cleans_found hfound hall, by simp, ?_⟩
    rintro ds hds d hd
    obtain rfl : found = ds := by simpa using hds
    exact List.all_eq_true.mp hfound d hd
  · cases hstep

/-- As long as `find` deletes what it comes to, the hollow directories are those still to come. -/
def Prunes (t : Store) : Position → Prop
  | .dropping _ | .exiting => True
  | .pruning ds => Tree.Prunes BelowUpstream t ds
  | .packing => ∀ p, BelowUpstream p → ¬ t.Hollow p
  | _ => False

theorem Prunes.step {e : Event} (he : e.cleans = true ∧ e.isSpares = false) (h : Prunes f.staging f.position)
    (hstep : f.step e = some f') : Prunes f'.staging f'.position := by
  obtain ⟨hcleans, hspares⟩ := he
  cases e with
  | executes =>
    simp only [Fleet.step, Fleet.executes] at hstep
    split at hstep
    · next hpos =>
      rw [hpos] at h
      exact h.elim
    · exact Option.some.inj hstep ▸ trivial
    · next hpos =>
      rw [hpos] at h
      exact Option.some.inj hstep ▸ h.visit (fun _ _ hq hqr => hq.mono hqr)
    · cases hstep
  | prunes order =>
    simp only [Fleet.step] at hstep
    split at hstep
    · obtain ⟨hvisit, rfl⟩ := EventRuns.guard_eq_some hstep
      exact (prunes_of_isVisit hvisit).1
    · cases hstep
  | counts =>
    simp only [Fleet.step] at hstep
    split at hstep
    · next hpos =>
      obtain rfl := Option.some.inj hstep
      rw [hpos] at h
      by_cases hkernels : nrKernels f.staging = 0
      · simp [hkernels, Prunes]
      · rw [if_neg hkernels]
        intro p hp hhollow
        simpa using h.visits p hp hhollow
    · cases hstep
  | spares => cases hspares
  | starts | fetches | builds | stops | finds | packs | packStops | redeploys | deploys | remote | remoteStops
  | exits | trapStops | killed => cases hcleans

/-- What is packed is the staging directory without its husks, with a manifest in every entry; where
`find` deletes what it comes to, also without directories that lead to no file. In particular the
entries with a manifest are all there. -/
theorem packed_store_cleaned {f f' : Fleet} {found : List Path} {es : List Event}
    (hplain : PlainManifests f.staging) (hall : (husks f.staging).all found.contains = true)
    (hes : ∀ e ∈ es, e.cleans = true)
    (hrun : EventRuns.run Fleet.step f (.finds found :: (es ++ [.packs])) = some f') :
    ∃ t, f'.packed = t :: f.packed ∧ f'.tarball = some (.whole t) ∧ Cleaned f.staging t ∧ NoHusk t ∧
      nrKernels t ≠ 0 ∧ ((∀ e ∈ es, e.isSpares = false) → ∀ p, BelowUpstream p → ¬ t.Hollow p) := by
  obtain ⟨f₁, hfinds, hrun⟩ := EventRuns.run_cons_eq_some_iff.mp hrun
  rw [EventRuns.run_append, Option.bind_eq_some_iff] at hrun
  obtain ⟨f₂, hclean, hpacks⟩ := hrun
  have h₂ : Cleaning f.staging f.packed f₂ := EventRuns.run_invariant
    (fun _ _ _ he h hstep => Cleaning.step he hplain h hstep) hes (cleaning_of_finds hall hfinds) hclean
  have hfull : (∀ e ∈ es, e.isSpares = false) → Prunes f₂.staging f₂.position := by
    intro hspares
    have h₁ : Prunes f₁.staging f₁.position := by
      simp only [Fleet.step] at hfinds
      split at hfinds
      · obtain ⟨-, rfl⟩ := EventRuns.guard_eq_some hfinds
        trivial
      · cases hfinds
    exact EventRuns.run_invariant (fun s _ _ he (h : Prunes s.staging s.position) hstep => h.step he hstep)
      (fun e he => ⟨hes e he, hspares e he⟩) h₁ hclean
  obtain ⟨f₃, hpack, hnil⟩ := EventRuns.run_cons_eq_some_iff.mp hpacks
  obtain rfl := Option.some.inj hnil
  simp only [Fleet.step] at hpack
  split at hpack
  · next hpos =>
    obtain rfl := Option.some.inj hpack
    have hcleans := h₂.cleans
    rw [hpos] at hcleans hfull
    exact ⟨f₂.staging, by rw [← h₂.packed], rfl, h₂.cleaned, hcleans.1, hcleans.2, hfull⟩
  · cases hpack

/-- The husk of the killed run is not packed, and its directories are gone. -/
theorem packed_store_cleaned_killed : ∃ f f' t, EventRuns.run Fleet.step firstFleet killedThenBuilt = some f ∧
    EventRuns.run Fleet.step f (.finds [killedHusk] :: (cleaned ++ [.packs])) = some f' ∧ f'.tarball = some (.whole t) ∧
    Cleaned f.staging t ∧ NoHusk t ∧ ∀ p, BelowUpstream p → ¬ t.Hollow p := by
  have hsome : (EventRuns.run Fleet.step firstFleet killedThenPacked).isSome = true := by decide +kernel
  obtain ⟨f', hrun⟩ := Option.isSome_iff_exists.mp hsome
  rw [killedThenPacked, EventRuns.run_append, Option.bind_eq_some_iff] at hrun
  obtain ⟨f, hrun, hclean⟩ := hrun
  have hplain := (Fleet.Inv.run firstFleet_atRest (by decide +kernel) hrun).staging.plainManifests
  have hall : (husks f.staging).all [killedHusk].contains = true := by
    have hfound : (EventRuns.run Fleet.step firstFleet killedThenBuilt).map
        (fun f => (husks f.staging).all [killedHusk].contains) = some true := by
      decide +kernel
    rw [hrun] at hfound
    exact Option.some.inj hfound
  obtain ⟨t, -, ht, hcleaned, hno, -, hfull⟩ := packed_store_cleaned hplain hall (by decide) hclean
  exact ⟨f, f', t, hrun, hclean, ht, hcleaned, hno, hfull (by decide)⟩

end KernelStore
end KtestCi
