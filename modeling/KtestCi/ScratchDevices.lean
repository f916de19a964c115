import KtestCi.DiskNames
import Mathlib.Data.List.Nodup

/-!
# Scratch devices, in the test and on the host

A test declares images, writable images and scratch devices. The prelude names the scratch
devices while it reads the declarations, and counts only them. The host attaches the root
disk, the images and the writable images before the scratch devices. The two countings agree
when a test declares one kind of disk only. The specifications of the drives are not part of
the model.
-/

namespace KtestCi

/-- An argument that the test hands over and `eval` reads back as it is. -/
structure PlainWord where
  text : Text
  ne_nil : text ≠ []
  plain : text.all (fun c => c.isAlphanum || "/._-+,:=@".toList.contains c) = true

inductive DiskDecl where
  | image (file : PlainWord)
  | rwImage (file : PlainWord)
  | scratchDev (size : PlainWord)

def DiskDecl.isScratch : DiskDecl → Bool
  | image _ | rwImage _ => false
  | scratchDev _ => true

@[simp] theorem DiskDecl.isScratch_image (file : PlainWord) : (image file).isScratch = false := rfl

@[simp] theorem DiskDecl.isScratch_rwImage (file : PlainWord) : (rwImage file).isScratch = false := rfl

@[simp] theorem DiskDecl.isScratch_scratchDev (size : PlainWord) :
    (scratchDev size).isScratch = true := rfl

inductive StorageBus where
  | virtioBlk
  | ahci
  | piix4Ide
  | hba (name : Text)
  deriving DecidableEq

def ktestDevPrefix : StorageBus → Text
  | .virtioBlk => "vd".toList
  | _ => "sd".toList

structure PreludeDisks where
  ktestImages : List PlainWord := []
  ktestRwImages : List PlainWord := []
  ktestScratchDev : List Text := []
  ktestScratchDevCount : ℕ := 0
  ktestScratchDevSizes : List PlainWord := []

def scratchDevName (bus : StorageBus) (index : ℕ) : Text :=
  "/dev/".toList ++ ktestDevPrefix bus ++ diskNameSuffix index

namespace PreludeDisks

def configScratchDevs (bus : StorageBus) (p : PreludeDisks) (size : PlainWord) : PreludeDisks :=
  let index := if bus = .virtioBlk then p.ktestScratchDevCount + 1 else p.ktestScratchDevCount
  { p with
    ktestScratchDev := p.ktestScratchDev ++ [scratchDevName bus index]
    ktestScratchDevCount := p.ktestScratchDevCount + 1
    ktestScratchDevSizes := p.ktestScratchDevSizes ++ [size] }

def configImage (p : PreludeDisks) (file : PlainWord) : PreludeDisks :=
  { p with ktestImages := p.ktestImages ++ [file] }

def configRwImage (p : PreludeDisks) (file : PlainWord) : PreludeDisks :=
  { p with ktestRwImages := p.ktestRwImages ++ [file] }

def config (bus : StorageBus) (p : PreludeDisks) : DiskDecl → PreludeDisks
  | .image file => p.configImage file
  | .rwImage file => p.configRwImage file
  | .scratchDev size => p.configScratchDevs bus size

def declare (bus : StorageBus) (decls : List DiskDecl) : PreludeDisks := decls.foldl (config bus) {}

end PreludeDisks

inductive AttachedDisk where
  | root
  | image (file : PlainWord)
  | rwImage (file : PlainWord)
  | scratch (size : PlainWord)

/-- The disks in the order they are attached, with the next disk number and the number of
the first scratch device. -/
structure VmDisks where
  disks : List AttachedDisk := []
  disknr : ℕ := 0
  ktestScratchDevBase : ℕ := 0

namespace VmDisks

def qemuDisk (vm : VmDisks) (disk : AttachedDisk) : VmDisks :=
  { vm with disks := vm.disks ++ [disk], disknr := vm.disknr + 1 }

/-- `start_vm` from the root disk to the last scratch device. -/
def startVm (p : PreludeDisks) : VmDisks :=
  let vm := ({} : VmDisks).qemuDisk .root
  let vm := p.ktestImages.foldl (fun vm file => vm.qemuDisk (.image file)) vm
  let vm := p.ktestRwImages.foldl (fun vm file => vm.qemuDisk (.rwImage file)) vm
  let vm := { vm with ktestScratchDevBase := vm.disknr }
  p.ktestScratchDevSizes.foldl (fun vm size => vm.qemuDisk (.scratch size)) vm

theorem foldl_qemuDisk {α : Type} (kind : α → AttachedDisk) (as : List α) (vm : VmDisks) :
    as.foldl (fun vm a => vm.qemuDisk (kind a)) vm =
      { vm with disks := vm.disks ++ as.map kind, disknr := vm.disknr + as.length } := by
  induction as generalizing vm with
  | nil => simp
  | cons a as ih =>
    rw [List.foldl_cons, ih]
    simp [qemuDisk, Nat.add_comm 1, Nat.add_assoc]

theorem startVm_base (p : PreludeDisks) :
    (startVm p).ktestScratchDevBase = p.ktestImages.length + p.ktestRwImages.length + 1 := by
  simp only [startVm, foldl_qemuDisk]
  simp only [qemuDisk]
  omega

theorem startVm_disks (p : PreludeDisks) :
    (startVm p).disks = (.root :: p.ktestImages.map .image ++ p.ktestRwImages.map .rwImage) ++
      p.ktestScratchDevSizes.map .scratch := by
  simp only [startVm, foldl_qemuDisk]
  simp [qemuDisk]

theorem startVm_disks_base_add (p : PreludeDisks) (i : ℕ) :
    (startVm p).disks[(startVm p).ktestScratchDevBase + i]? =
      p.ktestScratchDevSizes[i]?.map .scratch := by
  rw [startVm_disks, startVm_base, List.getElem?_append_right (by simp)]
  simp

end VmDisks

/-- What the declarations leave in the prelude. -/
structure Declared (bus : StorageBus) (decls : List DiskDecl) (p : PreludeDisks) : Prop where
  count : p.ktestScratchDevCount = decls.countP DiskDecl.isScratch
  sizes : p.ktestScratchDevSizes.length = p.ktestScratchDevCount
  images : p.ktestImages.length + p.ktestRwImages.length = decls.countP (fun d => !d.isScratch)
  devs : p.ktestScratchDev = (List.range p.ktestScratchDevCount).map (fun i =>
    scratchDevName bus (if bus = .virtioBlk then i + 1 else i))

theorem Declared.config {bus : StorageBus} {decls : List DiskDecl} {p : PreludeDisks}
    (h : Declared bus decls p) (d : DiskDecl) : Declared bus (decls ++ [d]) (p.config bus d) := by
  have himages := h.images
  cases d with
  | image file =>
    refine ⟨?_, h.sizes, ?_, h.devs⟩
    · simpa [PreludeDisks.config, PreludeDisks.configImage] using h.count
    · simp [PreludeDisks.config, PreludeDisks.configImage]
      omega
  | rwImage file =>
    refine ⟨?_, h.sizes, ?_, h.devs⟩
    · simpa [PreludeDisks.config, PreludeDisks.configRwImage] using h.count
    · simp [PreludeDisks.config, PreludeDisks.configRwImage]
      omega
  | scratchDev size =>
    refine ⟨?_, ?_, ?_, ?_⟩
    · simp [PreludeDisks.config, PreludeDisks.configScratchDevs, h.count]
    · simp [PreludeDisks.config, PreludeDisks.configScratchDevs, h.sizes]
    · simpa [PreludeDisks.config, PreludeDisks.configScratchDevs] using h.images
    · simp [PreludeDisks.config, PreludeDisks.configScratchDevs, h.devs, List.range_succ]

theorem declared (bus : StorageBus) (decls : List DiskDecl) :
    Declared bus decls (PreludeDisks.declare bus decls) := by
  induction decls using List.reverseRecOn with
  | nil => exact ⟨rfl, rfl, rfl, rfl⟩
  | append_singleton decls d ih =>
    rw [PreludeDisks.declare, List.foldl_append]
    exact ih.config d

theorem nodup_ktestScratchDev (bus : StorageBus) (decls : List DiskDecl) :
    (PreludeDisks.declare bus decls).ktestScratchDev.Nodup := by
  rw [(declared bus decls).devs]
  refine List.Nodup.map_on ?_ List.nodup_range
  intro i _ j _ heq
  have hindex := diskNameSuffix_injective (List.append_cancel_left heq)
  split_ifs at hindex <;> omega

/-- The suffixes are the words over the letters, by length and then alphabetically, each the
image of the index that its digits spell; so scratch devices never share a name. -/
theorem diskNameSuffix_counts (m n : ℕ) (name : Text) (bus : StorageBus) (decls : List DiskDecl) :
    IsDiskName (diskNameSuffix n) ∧
    (IsDiskName name → ∃ k : ℕ,
      k + 1 = (name.mapIdx (fun i c => letterDigit c * 26 ^ (name.length - (i + 1)))).sum ∧
      ∀ index : ℕ, diskNameSuffix index = name ↔ index = k) ∧
    (m < n ↔ List.Shortlex (· < ·) (diskNameSuffix m) (diskNameSuffix n)) ∧
    (PreludeDisks.declare bus decls).ktestScratchDev.Nodup := by
  refine ⟨isDiskName_diskNameSuffix n, ?_, (diskNameSuffix_lt_iff m n).symm,
    nodup_ktestScratchDev bus decls⟩
  intro hname
  have hpos := diskNumber_pos hname
  refine ⟨diskNumber name - 1, ?_, ?_⟩
  · rw [← BijectiveNumerals.numeral_eq_sum, ← diskNumber_eq_numeral]
    omega
  · intro index
    rw [diskNameSuffix_eq_iff hname]
    omega

/-- The name of every scratch device is the one of the disk that was attached for it. -/
def ScratchDevsAgree (decls : List DiskDecl) : Prop :=
  ∀ (i : ℕ) (size : PlainWord),
    (PreludeDisks.declare .virtioBlk decls).ktestScratchDevSizes[i]? = some size →
    (VmDisks.startVm (.declare .virtioBlk decls)).disks[
      (VmDisks.startVm (.declare .virtioBlk decls)).ktestScratchDevBase + i]? = some (.scratch size) ∧
    (PreludeDisks.declare .virtioBlk decls).ktestScratchDev[i]? =
      some ("/dev/vd".toList ++ diskNameSuffix
        ((VmDisks.startVm (.declare .virtioBlk decls)).ktestScratchDevBase + i : ℕ))

theorem startVm_declare_base (decls : List DiskDecl) :
    (VmDisks.startVm (.declare .virtioBlk decls)).ktestScratchDevBase =
      decls.countP (fun d => !d.isScratch) + 1 := by
  rw [VmDisks.startVm_base, (declared .virtioBlk decls).images]

theorem getElem?_ktestScratchDev {decls : List DiskDecl} {i : ℕ}
    (hi : i < decls.countP DiskDecl.isScratch) :
    (PreludeDisks.declare .virtioBlk decls).ktestScratchDev[i]? =
      some ("/dev/vd".toList ++ diskNameSuffix (i + 1 : ℕ)) := by
  have h := declared .virtioBlk decls
  rw [h.devs, h.count, List.getElem?_map, List.getElem?_range hi]
  rfl

/-- The host and the test agree on the scratch devices exactly when there are none or when
there is no other disk. -/
theorem scratchDevsAgree_iff (decls : List DiskDecl) :
    ScratchDevsAgree decls ↔
      (∀ d ∈ decls, d.isScratch = false) ∨ ∀ d ∈ decls, d.isScratch = true := by
  have h := declared .virtioBlk decls
  constructor
  · intro hagree
    by_cases hnone : decls.countP DiskDecl.isScratch = 0
    · left
      simpa using List.countP_eq_zero.mp hnone
    · right
      have hpos : 0 < decls.countP DiskDecl.isScratch := Nat.pos_of_ne_zero hnone
      have hlen : 0 < (PreludeDisks.declare .virtioBlk decls).ktestScratchDevSizes.length := by
        rw [h.sizes, h.count]
        exact hpos
      have hname := (hagree 0 _ (List.getElem?_eq_getElem hlen)).2
      rw [getElem?_ktestScratchDev hpos, startVm_declare_base] at hname
      have hindex := diskNameSuffix_injective (List.append_cancel_left (Option.some.inj hname))
      have hzero : decls.countP (fun d => !d.isScratch) = 0 := by omega
      simpa using List.countP_eq_zero.mp hzero
  · intro hkinds i size hsize
    refine ⟨by rw [VmDisks.startVm_disks_base_add, hsize]; rfl, ?_⟩
    have hi : i < decls.countP DiskDecl.isScratch := by
      rw [← h.count, ← h.sizes]
      exact (List.getElem?_eq_some_iff.mp hsize).1
    have hzero : decls.countP (fun d => !d.isScratch) = 0 := by
      rcases hkinds with hnone | hall
      · rw [List.countP_eq_zero.mpr (by simpa using hnone)] at hi
        omega
      · rw [List.countP_eq_zero]
        simpa using hall
    rw [getElem?_ktestScratchDev hi, startVm_declare_base, hzero, Nat.add_comm (0 + 1)]

/-- An image and a scratch device: the test uses `vdb`, which is the image. -/
theorem scratchDevs_disagree : ¬ ScratchDevsAgree
    [.image ⟨"img".toList, by decide, by decide⟩, .scratchDev ⟨"4G".toList, by decide, by decide⟩] := by
  intro hagree
  have hname := (hagree 0 ⟨"4G".toList, by decide, by decide⟩ rfl).2
  exact absurd hname (by decide +kernel)

end KtestCi
