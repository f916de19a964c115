import KtestCi.TextSearch
import KtestCi.TreeCommands

/-!
# Building an entry of the kernel store

`build-test-kernel build` stages an entry beside its place, with `manifest.json` as the last
file, and moves it there. `upstream-kernel-build` takes a manifest for a build that has
succeeded. A build can stop anywhere. Whatever builds there have been, an entry with a manifest
has everything that a kernel is started from: on the architectures for which a boot image is
installed at all, that includes the boot image.
-/

namespace KtestCi
namespace KernelStore

open CrashScripts FileTrees

abbrev Path := List Text

/-- A regular file that has been written to its end or not, or a symbolic link. -/
inductive Content where
  | whole | part | link
  deriving DecidableEq, Repr

abbrev Store := Tree Text Content

def upstream : Text := "upstream".toList
def manifest : Text := "manifest.json".toList
def vmlinuz : Text := "vmlinuz".toList
def vmlinux : Text := "vmlinux".toList
def config : Text := "config".toList
def gdbStub : Text := "vmlinux-gdb.py".toList
def lib : Text := "lib".toList
def buildLink : Text := "build".toList
def scripts : Text := "scripts".toList

/-- `ktest_arch` after `parse_arch`; any other architecture is not supported. -/
def parseArch (arch : Text) : Option Text :=
  if arch = "x86".toList ∨ arch = "i386".toList then some "x86".toList
  else if arch = "x86_64".toList ∨ arch = "amd64".toList then some "x86_64".toList
  else if arch = "aarch64".toList ∨ arch = "arm64".toList then some "aarch64".toList
  else if ["mips".toList, "mips64".toList, "sparc".toList, "sparc64".toList, "ppc".toList,
      "powerpc".toList, "ppc64".toList].contains arch then some arch
  else none

/-- The cases in which `build_kernel` installs a boot image: the last one of its `case` is the
word `default`, so that any other architecture is passed over. -/
def installsImage (ktestArch : Text) : Bool :=
  "x86".toList.isPrefixOf ktestArch || ktestArch == "aarch64".toList || ktestArch == "mips".toList

/-- One build: where its entry goes, and what `make` and `tar` put into the directories. -/
structure Build where
  releaseVariant : Text
  arch : Text
  version : Text
  pid : Text
  kernelRelease : Text
  hasGdbStub : Bool
  modules : Store
  depmod : Store
  headers : Store
  /-- Copied as well when the sources are not in the build directory. -/
  sources : Option Store
  gdbScripts : Option Store

def Build.dest (b : Build) : Path := [upstream, b.releaseVariant, b.arch, b.version]

def Build.stage (b : Build) : Path :=
  [upstream, b.releaseVariant, b.arch, b.version ++ ".work.".toList ++ b.pid]

/-- `build_kernel`, without a target for `make`. -/
def buildKernel (b : Build) (ktestArch : Text) (stage : Path) : List (Command Text Content) :=
  .remove stage :: mkdirs stage ++
    (if installsImage ktestArch then [.install (stage ++ [vmlinuz]) .whole] else []) ++
    [.install (stage ++ [vmlinux]) .whole, .install (stage ++ [config]) .whole] ++
    (if b.hasGdbStub then [.install (stage ++ [gdbStub]) .whole] else []) ++
    [.fill (stage ++ [lib]) b.modules, .fill (stage ++ [lib]) b.depmod]

/-- `finalize_kernel_build` up to the manifest. -/
def roundOut (b : Build) (stage : Path) : List (Command Text Content) :=
  let hdrs := stage ++ [lib, "modules".toList, b.kernelRelease, "build".toList]
  .remove hdrs :: mkdirs hdrs ++ [.fill hdrs b.headers] ++ (b.sources.map (.fill hdrs ·)).toList ++
    [.install (stage ++ [buildLink]) .link] ++
    (match b.gdbScripts with
      | some tree => if b.hasGdbStub then
          mkdirs (stage ++ [scripts]) ++ [.fill (stage ++ [scripts, "gdb".toList]) tree] else []
      | none => [])

def finalizeKernelBuild (b : Build) (stage : Path) : List (Command Text Content) :=
  roundOut b stage ++ [.install (stage ++ [manifest]) .whole]

/-- `cmd_build`. -/
def cmdBuild (b : Build) : List (Command Text Content) :=
  match parseArch b.arch with
  | none => []
  | some ktestArch =>
    .remove b.stage :: mkdirs b.stage ++ buildKernel b ktestArch b.stage ++ finalizeKernelBuild b b.stage ++
      mkdirs b.dest.dropLast ++ [.remove b.dest, .rename b.stage b.dest]

def alreadyHave (t : Store) (b : Build) : Bool :=
  match t.node (b.dest ++ [manifest]) with
  | some (.file _) => true
  | _ => false

/-- `build_one`, without `-f`. -/
def buildOne (t : Store) (b : Build) : List (Command Text Content) :=
  if alreadyHave t b then [] else mkdirs b.dest.dropLast ++ cmdBuild b

/-- `upstream/<release>-<variant>/<arch>/<version>`. -/
def IsEntry (d : Path) : Prop := d.length = 4 ∧ d.head? = some upstream

instance (d : Path) : Decidable (IsEntry d) := inferInstanceAs (Decidable (_ ∧ _))

theorem not_prefix_top {d e : Path} (hd : IsEntry d) (he : IsEntry e) (h : e ≠ d) (n : Text) : ¬ d <+: e ++ [n] := by
  intro habove
  have hlen : d.length = e.length := hd.1.trans he.1.symm
  have hde := List.prefix_of_prefix_length_le habove (List.prefix_append e [n]) hlen.le
  exact h (hde.eq_of_length hlen).symm

/-- A kernel can be started from the entry, and modules built for it. -/
structure Complete (t : Store) (d : Path) : Prop where
  image : ∀ arch ktestArch, d[2]? = some arch → parseArch arch = some ktestArch →
    installsImage ktestArch = true → t.node (d ++ [vmlinuz]) = some (.file .whole)
  vmlinux : t.node (d ++ [vmlinux]) = some (.file .whole)
  config : t.node (d ++ [config]) = some (.file .whole)
  buildLink : t.node (d ++ [buildLink]) = some (.file .link)
  manifest : t.node (d ++ [manifest]) ≠ some .dir

/-- A manifest is the mark of a build that has succeeded. -/
def Finished (t : Store) : Prop :=
  ∀ d, IsEntry d → (t.node (d ++ [manifest])).isSome = true → Complete t d

theorem finished_nil : Finished [] := by
  intro d _ hsome
  simp [FileTrees.Tree.node] at hsome

theorem Complete.congr {t t' : Store} {d : Path} (h : Complete t d)
    (heq : ∀ n, t'.node (d ++ [n]) = t.node (d ++ [n])) : Complete t' d :=
  ⟨by simpa only [heq] using h.image, (heq _).trans h.vmlinux, (heq _).trans h.config,
    (heq _).trans h.buildLink, by simpa only [heq] using h.manifest⟩

/-- What is written at the top of one entry makes no difference to the others. -/
theorem Finished.congr {t t' : Store} {stage : Path} (h : Finished t) (hstage : stage.length = 4)
    (heq : ∀ r, r.length = 5 → ¬ stage <+: r → t'.node r = t.node r)
    (hcomplete : (t'.node (stage ++ [manifest])).isSome = true → Complete t' stage) : Finished t' := by
  intro d hd hmanifest
  by_cases hds : d = stage
  · exact hds ▸ hcomplete (hds ▸ hmanifest)
  · have hother : ∀ n, t'.node (d ++ [n]) = t.node (d ++ [n]) := by
      intro n
      refine heq _ (by simp [hd.1]) ?_
      intro habove
      have hlen : stage.length = d.length := hstage.trans hd.1.symm
      have hsd := List.prefix_of_prefix_length_le habove (List.prefix_append d [n]) hlen.le
      exact hds (hsd.eq_of_length hlen).symm
    rw [hother] at hmanifest
    exact (h d hd hmanifest).congr hother

/-- At the top of an entry the commands write the given names, and nothing in other entries. -/
def Writes (stage : Path) (names : List Text) (ks : List (Command Text Content)) : Prop :=
  ∀ k ∈ ks, ∀ r, r.length = 5 → k.touches r = true → ∃ n ∈ names, r = stage ++ [n]

namespace Writes

variable {stage : Path} {names names' : List Text} {ks ks' : List (Command Text Content)}

theorem nil : Writes stage names [] := by simp [Writes]

theorem append (h : Writes stage names ks) (h' : Writes stage names ks') : Writes stage names (ks ++ ks') := by
  intro k hk
  rcases List.mem_append.mp hk with hk | hk
  · exact h k hk
  · exact h' k hk

theorem mono (h : Writes stage names ks) (hsub : names ⊆ names') : Writes stage names' ks := by
  intro k hk r hlen hr
  obtain ⟨n, hn, rfl⟩ := h k hk r hlen hr
  exact ⟨n, hsub hn, rfl⟩

theorem mkdirs_above {p : Path} (hp : p.length ≤ 4) : Writes stage names (mkdirs p) := by
  intro k hk r hlen hr
  have hle := (touches_of_mem_mkdirs hk hr).length_le
  omega

theorem install (n : Text) (c : Content) (hn : n ∈ names) : Writes stage names [.install (stage ++ [n]) c] := by
  intro k hk r _ hr
  obtain rfl := List.mem_singleton.mp hk
  exact ⟨n, hn, by simpa [Command.touches] using hr⟩

variable (hstage : stage.length = 4)
include hstage

theorem eq_of_prefix {n : Text} {rest r : Path} (hlen : r.length = 5) (h : stage ++ n :: rest <+: r) :
    r = stage ++ [n] := by
  have hrest : rest = [] := by
    have hle := h.length_le
    simp only [List.length_append, List.length_cons] at hle
    exact List.length_eq_zero_iff.mp (by omega)
  subst hrest
  exact (h.eq_of_length (by simp [hstage, hlen])).symm

theorem fill (n : Text) (rest : Path) (c : Store) (hn : n ∈ names) :
    Writes stage names [.fill (stage ++ n :: rest) c] := by
  intro k hk r hlen hr
  obtain rfl := List.mem_singleton.mp hk
  exact ⟨n, hn, eq_of_prefix hstage hlen (by simpa [Command.touches] using hr)⟩

theorem remove (n : Text) (rest : Path) (hn : n ∈ names) :
    Writes stage names [.remove (stage ++ n :: rest)] := by
  intro k hk r hlen hr
  obtain rfl := List.mem_singleton.mp hk
  exact ⟨n, hn, eq_of_prefix hstage hlen (by simpa [Command.touches] using hr)⟩

theorem mkdirs_below (n : Text) (rest : Path) (hn : n ∈ names) :
    Writes stage names (mkdirs (stage ++ n :: rest)) := by
  intro k hk r hlen hr
  refine ⟨n, hn, ?_⟩
  have habove : r <+: stage ++ [n] ++ rest := by
    simpa using touches_of_mem_mkdirs hk hr
  have hlen' : r.length = (stage ++ [n]).length := by simp [hstage, hlen]
  exact (List.prefix_of_prefix_length_le habove (List.prefix_append _ rest) hlen'.le).eq_of_length hlen'

end Writes

theorem finish_top {stage : Path} {names : List Text} {ks : List (Command Text Content)} {n : Text}
    (hstage : stage.length = 4) (h : Writes stage names ks) (hn : n ∉ names) (t : Store) :
    (finish treeSemantics ks t).node (stage ++ [n]) = t.node (stage ++ [n]) := by
  refine finish_node (fun k hk => ?_)
  by_contra htouch
  obtain ⟨m, hm, heq⟩ := h k hk (stage ++ [n]) (by simp [hstage]) (by simpa using htouch)
  obtain rfl : n = m := by simpa using heq
  exact hn hm

theorem finish_other {stage d : Path} {names : List Text} {ks : List (Command Text Content)}
    (h : Writes stage names ks) (hd : d.length = 4) (hne : d ≠ stage) (n : Text) (t : Store) :
    (finish treeSemantics ks t).node (d ++ [n]) = t.node (d ++ [n]) := by
  refine finish_node (fun k hk => ?_)
  by_contra htouch
  obtain ⟨m, -, heq⟩ := h k hk (d ++ [n]) (by simp [hd]) (by simpa using htouch)
  exact hne (List.append_inj_left' heq rfl)

theorem finish_installed {stage : Path} {names : List Text} {ks : List (Command Text Content)} {n : Text}
    (hstage : stage.length = 4) (h : Writes stage names ks) (hn : n ∉ names) (c : Content) (t : Store) :
    (finish treeSemantics (.install (stage ++ [n]) c :: ks) t).node (stage ++ [n]) = some (.file c) := by
  rw [finish_cons, finish_top hstage h hn]
  simp [treeSemantics, Command.exec]

/-- While an entry is staged, it has no manifest. -/
def Midway (stage : Path) (t : Store) : Prop := Finished t ∧ t.node (stage ++ [manifest]) = none

/-- A command that does not write the manifest keeps that so, even if it is cut short. -/
theorem Midway.kept {stage : Path} {names : List Text} {k : Command Text Content} {t : Store}
    (hstage : stage.length = 4) (hk : Writes stage names [k]) (hn : manifest ∉ names) (h : Midway stage t) :
    (∀ left, treeSemantics.Cut k t left → Midway stage left) ∧ Midway stage (k.exec t) := by
  have hkept : ∀ t' : Store, (∀ r, k.touches r = false → t'.node r = t.node r) → Midway stage t' := by
    intro t' heq
    have hmanifest : t'.node (stage ++ [manifest]) = none := by
      rw [heq _ ?_, h.2]
      by_contra htouch
      obtain ⟨m, hm, hr⟩ := hk k (by simp) (stage ++ [manifest]) (by simp [hstage]) (by simpa using htouch)
      obtain rfl : manifest = m := by simpa using hr
      exact hn hm
    refine ⟨h.1.congr hstage ?_ (by simp [hmanifest]), hmanifest⟩
    intro r hlen hr
    refine heq r ?_
    by_contra htouch
    obtain ⟨m, -, rfl⟩ := hk k (by simp) r hlen (by simpa using htouch)
    exact hr (List.prefix_append _ _)
  exact ⟨fun left hcut => hkept left (fun r hr => Command.leaves_node hcut hr),
    hkept _ (fun r hr => Command.exec_node hr)⟩

theorem Midway.script {stage : Path} {names : List Text} {ks : List (Command Text Content)} {t : Store}
    (hstage : stage.length = 4) (hks : Writes stage names ks) (hn : manifest ∉ names) (h : Midway stage t) :
    Safe treeSemantics (Midway stage) ks t ∧ Midway stage (finish treeSemantics ks t) := by
  have hkept : ∀ k ∈ ks, ∀ s, Midway stage s →
      (∀ left, treeSemantics.Cut k s left → Midway stage left) ∧ Midway stage (treeSemantics.exec k s) := by
    intro k hk s hs
    refine hs.kept hstage (fun k' hk' => ?_) hn
    obtain rfl := List.mem_singleton.mp hk'
    exact hks k' hk
  exact ⟨safe_of_kept hkept h, finish_of_kept (fun k hk s hs => (hkept k hk s hs).2) h⟩

theorem Finished.remove {t : Store} (h : Finished t) {d : Path} (hd : d.length = 4) : Midway d (t.remove d) := by
  have hnone : (t.remove d).node (d ++ [manifest]) = none := by simp
  refine ⟨h.congr hd ?_ (by simp [hnone]), hnone⟩
  intro r _ hr
  simp [hr]

theorem Finished.congr_top {t t' : Store} (h : Finished t) (heq : ∀ r, r.length = 5 → t'.node r = t.node r) :
    Finished t' := by
  intro d hd hmanifest
  have htop : ∀ n, t'.node (d ++ [n]) = t.node (d ++ [n]) := fun n => heq _ (by simp [hd.1])
  rw [htop] at hmanifest
  exact (h d hd hmanifest).congr htop

theorem not_touches_of_mem_mkdirs {p r : Path} {k : Command Text Content} (hp : p.length ≤ 4)
    (hr : r.length = 5) (hk : k ∈ mkdirs p) : k.touches r = false := by
  by_contra htouch
  have hle := (touches_of_mem_mkdirs hk (by simpa using htouch)).length_le
  omega

theorem finish_mkdirs_above {p r : Path} (hp : p.length ≤ 4) (hr : r.length = 5) (t : Store) :
    (finish treeSemantics (mkdirs p) t).node r = t.node r :=
  finish_node (fun _ hk => not_touches_of_mem_mkdirs hp hr hk)

theorem Finished.mkdirs_above {t : Store} (h : Finished t) {p : Path} (hp : p.length ≤ 4) :
    Safe treeSemantics Finished (mkdirs p) t ∧ Finished (finish treeSemantics (mkdirs p) t) := by
  refine ⟨safe_of_kept (fun k hk s hs => ⟨?_, ?_⟩) h, h.congr_top (fun r hr => finish_mkdirs_above hp hr t)⟩
  · intro left hcut
    exact hs.congr_top (fun r hr => Command.leaves_node hcut (not_touches_of_mem_mkdirs hp hr hk))
  · exact hs.congr_top (fun r hr => Command.exec_node (not_touches_of_mem_mkdirs hp hr hk))

/-- What is left of an entry without a manifest is not taken for an entry. -/
theorem Midway.cut_remove {t left : Store} {d : Path} (h : Midway d t) (hd : d.length = 4)
    (hleft : (Command.remove d : Command Text Content).leaves t left = true) : Finished left := by
  refine h.1.congr hd (fun r _ hr => Command.leaves_node hleft (by simpa [Command.touches] using hr)) ?_
  intro hsome
  rcases Command.leaves_remove (r := d ++ [manifest]) hleft with heq | heq
  · simp [heq, h.2] at hsome
  · simp [heq] at hsome

theorem Midway.safe_remove {t : Store} {d : Path} (h : Midway d t) (hd : d.length = 4) :
    Safe treeSemantics Finished [.remove d] t :=
  ⟨h.1, fun _ hcut => h.cut_remove hd hcut, (h.1.remove hd).1⟩

namespace Build

variable (b : Build)

theorem length_stage : b.stage.length = 4 := rfl

theorem length_dest : b.dest.length = 4 := rfl

theorem stage_ne_dest : b.stage ≠ b.dest := by
  intro h
  have hlen := congrArg List.length (List.getLast_congr (by simp [stage]) (by simp [dest]) h)
  have hwork : ".work.".toList.length = 6 := rfl
  simp only [stage, dest, List.getLast_cons_cons, List.getLast_singleton, List.length_append] at hlen
  omega

theorem isEntry_stage : IsEntry b.stage := ⟨b.length_stage, rfl⟩

theorem isEntry_dest : IsEntry b.dest := ⟨b.length_dest, rfl⟩

theorem node_remove_dest (t : Store) (n : Text) :
    (t.remove b.dest).node (b.stage ++ [n]) = t.node (b.stage ++ [n]) := by
  rw [Tree.node_remove, if_neg (not_prefix_top b.isEntry_dest b.isEntry_stage b.stage_ne_dest n)]

theorem node_remove_stage (t : Store) (n : Text) :
    (t.remove b.stage).node (b.dest ++ [n]) = t.node (b.dest ++ [n]) := by
  rw [Tree.node_remove, if_neg (not_prefix_top b.isEntry_stage b.isEntry_dest b.stage_ne_dest.symm n)]

theorem writes_headers {stage : Path} (hstage : stage.length = 4) :
    let hdrs := stage ++ [lib, "modules".toList, b.kernelRelease, "build".toList]
    Writes stage [lib, buildLink, scripts]
      (.remove hdrs :: mkdirs hdrs ++ [.fill hdrs b.headers] ++ (b.sources.map (.fill hdrs ·)).toList) := by
  intro hdrs
  refine (((Writes.remove hstage lib _ (by simp)).append
    (Writes.mkdirs_below hstage lib _ (by simp))).append (Writes.fill hstage lib _ _ (by simp))).append ?_
  cases b.sources with
  | none => exact Writes.nil
  | some tree => exact Writes.fill hstage lib _ tree (by simp)

theorem writes_gdbScripts {stage : Path} (hstage : stage.length = 4) :
    Writes stage [lib, scripts] (match b.gdbScripts with
      | some tree => if b.hasGdbStub then
          mkdirs (stage ++ [scripts]) ++ [.fill (stage ++ [scripts, "gdb".toList]) tree] else []
      | none => []) := by
  cases b.gdbScripts with
  | none => exact Writes.nil
  | some tree =>
    simp only
    split_ifs
    · exact (Writes.mkdirs_below hstage scripts [] (by simp)).append
        (Writes.fill hstage scripts _ tree (by simp))
    · exact Writes.nil

theorem writes_roundOut {stage : Path} (hstage : stage.length = 4) :
    Writes stage [lib, buildLink, scripts] (roundOut b stage) :=
  ((b.writes_headers hstage).append (Writes.install buildLink _ (by simp))).append
    ((b.writes_gdbScripts hstage).mono (by simp))

def staged (ktestArch : Text) (stage : Path) : List (Command Text Content) :=
  mkdirs stage ++ ((if installsImage ktestArch then [.install (stage ++ [vmlinuz]) .whole] else []) ++
    (.install (stage ++ [vmlinux]) .whole :: .install (stage ++ [config]) .whole ::
      ((if b.hasGdbStub then [.install (stage ++ [gdbStub]) .whole] else []) ++
        ([.fill (stage ++ [lib]) b.modules, .fill (stage ++ [lib]) b.depmod] ++ roundOut b stage))))

theorem buildKernel_append_finalize (ktestArch : Text) (stage : Path) :
    buildKernel b ktestArch stage ++ finalizeKernelBuild b stage =
      .remove stage :: (b.staged ktestArch stage ++ [.install (stage ++ [manifest]) .whole]) := by
  simp only [buildKernel, finalizeKernelBuild, staged, List.append_assoc, List.cons_append, List.nil_append]

section Staged

variable {stage : Path} (hstage : stage.length = 4)
include hstage

theorem writes_afterConfig : Writes stage [gdbStub, lib, buildLink, scripts]
    ((if b.hasGdbStub then [.install (stage ++ [gdbStub]) .whole] else []) ++
      ([.fill (stage ++ [lib]) b.modules, .fill (stage ++ [lib]) b.depmod] ++ roundOut b stage)) := by
  refine Writes.append ?_ (Writes.append ?_ ((b.writes_roundOut hstage).mono (by simp)))
  · split_ifs
    · exact Writes.install gdbStub _ (by simp)
    · exact Writes.nil
  · exact (Writes.fill hstage lib [] b.modules (by simp)).append (Writes.fill hstage lib [] b.depmod (by simp))

theorem writes_afterImage : Writes stage [vmlinux, config, gdbStub, lib, buildLink, scripts]
    (.install (stage ++ [vmlinux]) .whole :: .install (stage ++ [config]) .whole ::
      ((if b.hasGdbStub then [.install (stage ++ [gdbStub]) .whole] else []) ++
        ([.fill (stage ++ [lib]) b.modules, .fill (stage ++ [lib]) b.depmod] ++ roundOut b stage))) :=
  (Writes.install vmlinux _ (by simp)).append ((Writes.install config _ (by simp)).append
    ((b.writes_afterConfig hstage).mono (by simp)))

theorem writes_staged (ktestArch : Text) :
    Writes stage [vmlinuz, vmlinux, config, gdbStub, lib, buildLink, scripts] (b.staged ktestArch stage) := by
  refine (Writes.mkdirs_above hstage.le).append (Writes.append ?_ ((b.writes_afterImage hstage).mono (by simp)))
  split_ifs
  · exact Writes.install vmlinuz _ (by simp)
  · exact Writes.nil

theorem buildLink_roundOut (t : Store) :
    (finish treeSemantics (roundOut b stage) t).node (stage ++ [buildLink]) = some (.file .link) := by
  rw [roundOut, finish_append, finish_append]
  exact finish_installed hstage (b.writes_gdbScripts hstage) (by decide) .link _

theorem complete_staged {ktestArch : Text} (harch : ∀ arch, stage[2]? = some arch → parseArch arch = some ktestArch)
    {t : Store} (hnone : t.node (stage ++ [manifest]) = none) :
    Complete (finish treeSemantics (b.staged ktestArch stage) t) stage := by
  have hmanifest := finish_top hstage (b.writes_staged hstage ktestArch) (by decide : manifest ∉ _) t
  unfold staged at hmanifest ⊢
  refine ⟨?_, ?_, ?_, ?_, ?_⟩
  · intro arch ktestArch' h₂ hparse himage
    obtain rfl : ktestArch = ktestArch' := Option.some.inj ((harch arch h₂).symm.trans hparse)
    rw [finish_append, if_pos himage]
    exact finish_installed hstage (b.writes_afterImage hstage) (by decide) _ _
  · rw [finish_append, finish_append]
    have hrest := (Writes.install config .whole List.mem_cons_self).append
      ((b.writes_afterConfig hstage).mono (List.subset_cons_self config _))
    exact finish_installed hstage hrest (by decide) _ _
  · rw [finish_append, finish_append, finish_cons]
    exact finish_installed hstage (b.writes_afterConfig hstage) (by decide) _ _
  · rw [finish_append, finish_append, finish_cons, finish_cons, finish_append, finish_append]
    exact b.buildLink_roundOut hstage _
  · rw [hmanifest, hnone]
    exact (Option.some_ne_none _).symm

end Staged

theorem node_rename_stage (t : Store) (n : Text) :
    (t.rename b.stage b.dest).node (b.dest ++ [n]) = t.node (b.stage ++ [n]) := by
  simp [Tree.node_rename]

theorem finished_rename {t : Store} (h : Finished t) (hcomplete : Complete t b.stage) :
    Finished (t.rename b.stage b.dest) ∧ Complete (t.rename b.stage b.dest) b.dest := by
  have hdest : Complete (t.rename b.stage b.dest) b.dest :=
    ⟨fun arch ktestArch h₂ => by simpa only [node_rename_stage] using hcomplete.image arch ktestArch h₂,
      (b.node_rename_stage t _).trans hcomplete.vmlinux, (b.node_rename_stage t _).trans hcomplete.config,
      (b.node_rename_stage t _).trans hcomplete.buildLink,
      by simpa only [node_rename_stage] using hcomplete.manifest⟩
  refine ⟨(h.remove b.length_stage).1.congr b.length_dest ?_ (fun _ => hdest), hdest⟩
  intro r _ hr
  simp [Tree.node_rename, hr]

theorem node_publish (t : Store) (n : Text) :
    (finish treeSemantics (mkdirs b.dest.dropLast ++ [.remove b.dest, .rename b.stage b.dest]) t).node
        (b.dest ++ [n]) = t.node (b.stage ++ [n]) := by
  have habove : b.dest.dropLast.length ≤ 4 := by simp [dest]
  rw [finish_append, finish_cons, finish_cons, finish_nil]
  refine (b.node_rename_stage _ n).trans ((b.node_remove_dest _ n).trans ?_)
  rw [finish_mkdirs_above habove (by simp [b.length_stage])]

/-- After the manifest the entry is put into its place, where no other one is marked as complete. -/
theorem publish {t : Store} (h : Midway b.dest t) (hcomplete : Complete t b.stage) :
    let publish := mkdirs b.dest.dropLast ++ [.remove b.dest, .rename b.stage b.dest]
    Safe treeSemantics Finished publish t ∧ Complete (finish treeSemantics publish t) b.dest := by
  intro publish
  have habove : b.dest.dropLast.length ≤ 4 := by simp [dest]
  obtain ⟨hsafe, hkept⟩ := h.1.mkdirs_above habove
  set u := finish treeSemantics (mkdirs b.dest.dropLast) t with hu
  have hstaged : ∀ n, (u.remove b.dest).node (b.stage ++ [n]) = t.node (b.stage ++ [n]) := by
    intro n
    rw [b.node_remove_dest, hu, finish_mkdirs_above habove (by simp [b.length_stage])]
  have hmidway : Midway b.dest u := ⟨hkept, by rw [hu, finish_mkdirs_above habove (by simp [b.length_dest]), h.2]⟩
  obtain ⟨hfinished, hplaced⟩ := b.finished_rename (hkept.remove b.length_dest).1 (hcomplete.congr hstaged)
  have hfinish : finish treeSemantics publish t = (u.remove b.dest).rename b.stage b.dest := by
    rw [finish_append]
    rfl
  refine ⟨hsafe.append ((hmidway.safe_remove b.length_dest).append ?_), hfinish ▸ hplaced⟩
  refine ⟨(hkept.remove b.length_dest).1, fun left hleft => ?_, hfinished⟩
  obtain rfl := eq_of_beq hleft
  exact (hkept.remove b.length_dest).1

theorem finalize {t : Store} (h : Finished t) (hcomplete : Complete t b.stage) :
    Safe treeSemantics Finished [.install (b.stage ++ [manifest]) .whole] t ∧
      Complete (finish treeSemantics [.install (b.stage ++ [manifest]) .whole] t) b.stage := by
  have hkept : ∀ t' : Store, (∀ r, r ≠ b.stage ++ [manifest] → t'.node r = t.node r) →
      t'.node (b.stage ++ [manifest]) ≠ some .dir → Finished t' ∧ Complete t' b.stage := by
    intro t' heq hmanifest
    have htop : ∀ n, n ≠ manifest → t'.node (b.stage ++ [n]) = t.node (b.stage ++ [n]) :=
      fun n hn => heq _ (by simpa using hn)
    have hcomplete' : Complete t' b.stage :=
      ⟨fun arch ktestArch h₂ => by simpa only [htop vmlinuz (by decide)] using hcomplete.image arch ktestArch h₂,
        (htop _ (by decide)).trans hcomplete.vmlinux, (htop _ (by decide)).trans hcomplete.config,
        (htop _ (by decide)).trans hcomplete.buildLink, hmanifest⟩
    refine ⟨h.congr b.length_stage (fun r _ hr => heq r ?_) (fun _ => hcomplete'), hcomplete'⟩
    rintro rfl
    exact hr (List.prefix_append _ _)
  have htouches : ∀ r, r ≠ b.stage ++ [manifest] →
      (Command.install (b.stage ++ [manifest]) Content.whole).touches r = false := by
    intro r hr
    simpa [Command.touches] using hr
  have hexec := hkept (t.put (b.stage ++ [manifest]) (.file .whole)) (fun r hr => by simp [hr]) (by simp)
  refine ⟨⟨h, fun left hcut => ?_, hexec.1⟩, hexec.2⟩
  exact (hkept left (fun r hr => Command.leaves_node hcut (htouches r hr))
    (Command.leaves_install hcut hcomplete.manifest)).1

def stagedBuild (ktestArch : Text) : List (Command Text Content) :=
  mkdirs b.stage ++ ([.remove b.stage] ++ (b.staged ktestArch b.stage ++
    ([.install (b.stage ++ [manifest]) .whole] ++
      (mkdirs b.dest.dropLast ++ [.remove b.dest, .rename b.stage b.dest]))))

theorem cmdBuild_eq {ktestArch : Text} (harch : parseArch b.arch = some ktestArch) :
    cmdBuild b = [.remove b.stage] ++ b.stagedBuild ktestArch := by
  simp only [cmdBuild, stagedBuild, harch, List.cons_append, List.append_assoc, List.nil_append]
  rw [← List.append_assoc (buildKernel _ _ _), buildKernel_append_finalize]
  simp only [List.cons_append, List.append_assoc, List.nil_append]

/-- Once there is no manifest in the two places of the entry, the marks are right at every moment, and
at the end the entry has been made. -/
theorem stagedBuild_spec {ktestArch : Text} (harch : parseArch b.arch = some ktestArch) {t : Store}
    (h : Midway b.stage t) (hdest : t.node (b.dest ++ [manifest]) = none) :
    Safe treeSemantics Finished (b.stagedBuild ktestArch) t ∧
      Complete (finish treeSemantics (b.stagedBuild ktestArch) t) b.dest ∧
      (finish treeSemantics (b.stagedBuild ktestArch) t).node (b.dest ++ [manifest]) = some (.file .whole) := by
  have harch' : ∀ arch, b.stage[2]? = some arch → parseArch arch = some ktestArch := by
    intro arch h₂
    obtain rfl : b.arch = arch := by simpa [stage] using h₂
    exact harch
  have hother : b.dest ≠ b.stage := b.stage_ne_dest.symm
  obtain ⟨hmade, hfinished⟩ := h.1.mkdirs_above b.length_stage.le
  set u := finish treeSemantics (mkdirs b.stage) t with hu
  have hmidway : Midway b.stage u :=
    ⟨hfinished, by rw [hu, finish_mkdirs_above b.length_stage.le (by simp [b.length_stage]), h.2]⟩
  have hemptied := hfinished.remove b.length_stage
  have hwrites := b.writes_staged b.length_stage ktestArch
  obtain ⟨hstaged, hstaging⟩ := hemptied.script b.length_stage hwrites (by decide)
  obtain ⟨hmanifest, hcomplete⟩ := b.finalize hstaging.1 (b.complete_staged b.length_stage harch' hemptied.2)
  have hplace : Midway b.dest (finish treeSemantics [.install (b.stage ++ [manifest]) .whole]
      (finish treeSemantics (b.staged ktestArch b.stage) (u.remove b.stage))) := by
    refine ⟨hmanifest.next.now, ?_⟩
    rw [finish_other (Writes.install manifest .whole (List.mem_singleton_self _)) b.length_dest hother,
      finish_other hwrites b.length_dest hother, b.node_remove_stage, hu,
      finish_mkdirs_above b.length_stage.le (by simp [b.length_dest]), hdest]
  obtain ⟨hpublish, hplaced⟩ := b.publish hplace hcomplete
  refine ⟨?_, ?_, ?_⟩
  · exact hmade.append ((hmidway.safe_remove b.length_stage).append ((hstaged.mono (fun _ h => h.1)).append
      (hmanifest.append hpublish)))
  · rw [stagedBuild, finish_append, finish_append, finish_append, finish_append]
    exact hplaced
  · rw [stagedBuild, finish_append, finish_append, finish_append, finish_append]
    exact (b.node_publish _ _).trans ((Tree.node_put _ _ _ _).trans (if_pos rfl))

theorem midway_of_not_alreadyHave {t : Store} (h : Finished t) (hhave : alreadyHave t b = false) :
    Midway b.dest t := by
  refine ⟨h, ?_⟩
  cases hnode : t.node (b.dest ++ [manifest]) with
  | none => rfl
  | some n =>
    cases n with
    | dir => exact absurd hnode (h b.dest ⟨b.length_dest, rfl⟩ (by simp [hnode])).manifest
    | file c => simp [alreadyHave, hnode] at hhave

theorem stage_above (t : Store) : (finish treeSemantics (mkdirs b.dest.dropLast) t).node (b.stage ++ [manifest]) =
    t.node (b.stage ++ [manifest]) :=
  finish_mkdirs_above (by simp [dest]) (by simp [b.length_stage]) t

theorem midway_above {t : Store} (h : Finished t) (hhave : alreadyHave t b = false) :
    Safe treeSemantics Finished (mkdirs b.dest.dropLast) t ∧
      Midway b.dest (finish treeSemantics (mkdirs b.dest.dropLast) t) := by
  have habove : b.dest.dropLast.length ≤ 4 := by simp [dest]
  obtain ⟨hsafe, hfinished⟩ := h.mkdirs_above habove
  refine ⟨hsafe, hfinished, ?_⟩
  rw [finish_mkdirs_above habove (by simp [b.length_dest])]
  exact (b.midway_of_not_alreadyHave h hhave).2

theorem cmdBuild_safe {t : Store} (hdest : Midway b.dest t)
    (hstage : parseArch b.arch = none ∨ t.node (b.stage ++ [manifest]) = none) :
    Safe treeSemantics Finished (cmdBuild b) t := by
  cases harch : parseArch b.arch with
  | none =>
    rw [cmdBuild, harch]
    exact hdest.1
  | some ktestArch =>
    have hmidway : Midway b.stage t := ⟨hdest.1, hstage.resolve_left (by simp [harch])⟩
    rw [b.cmdBuild_eq harch]
    refine (hmidway.safe_remove b.length_stage).append
      (b.stagedBuild_spec harch (hdest.1.remove b.length_stage) ?_).1
    rw [b.node_remove_stage, hdest.2]

/-- There is nothing to build, or no manifest of an earlier build in the directory that the entry is
staged in. -/
def FreshStage (t : Store) : Prop :=
  alreadyHave t b = true ∨ parseArch b.arch = none ∨ t.node (b.stage ++ [manifest]) = none

instance (t : Store) : Decidable (b.FreshStage t) := inferInstanceAs (Decidable (_ ∨ _ ∨ _))

theorem buildOne_safe {t : Store} (h : Finished t) (hfresh : b.FreshStage t) :
    Safe treeSemantics Finished (buildOne t b) t := by
  cases hhave : alreadyHave t b with
  | true =>
    rw [buildOne, hhave, if_pos rfl]
    exact h
  | false =>
    obtain ⟨habove, hmidway⟩ := b.midway_above h hhave
    rw [buildOne, hhave, if_neg Bool.false_ne_true]
    refine habove.append (b.cmdBuild_safe hmidway ?_)
    rw [b.stage_above]
    exact hfresh.resolve_left (by simp [hhave])

end Build

def buildOf (releaseVariant arch pid : Text) : Build :=
  ⟨releaseVariant, arch, "7.1".toList, pid, "7.1.0".toList, false, [], [],
    [(["Makefile".toList], .file .whole)], none, none⟩

end KernelStore
end KtestCi
