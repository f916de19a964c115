import KtestCi.ScratchDevices
import KtestCi.TextLines
import Mathlib.Data.List.Nodup

/-!
# The disks of the virtual machine

`start_vm` attaches the root disk, images, writable images, scratch devices, slow devices and
persistent memory, in this order, and counts them. On the `virtio-blk` bus every 31 disks past
the root disk share a bridge, which is declared with the first of them. The arguments of the
disks also go into two lists, a line for each disk, from which the guest puts a disk back that
it had taken away.
-/

namespace KtestCi
namespace Qemu

/-- The ids that `-device` arguments declare. -/
inductive DeviceId where
  | pci (nr : ℕ)
  | hba
  | port (br : ℕ)
  | bridge (br : ℕ)
  | dev (disknr : ℕ)
  | nv (disknr : ℕ)
  deriving DecidableEq, Repr

def DeviceId.text : DeviceId → Text
  | pci nr => "pci.".toList ++ Text.ofInt nr
  | hba => "hba".toList
  | port br => "rp.blk".toList ++ Text.ofInt br
  | bridge br => "pci.blk".toList ++ Text.ofInt br
  | dev disknr => "dev".toList ++ Text.ofInt disknr
  | nv disknr => "nv".toList ++ Text.ofInt disknr

/-- What `printf '0x%x'` prints. -/
def hexText (n : ℕ) : Text := "0x".toList ++ Nat.toDigits 16 n

/-- A `-device` argument. A disk on the `virtio-blk` bus has a bridge and a slot, the root disk
has not. -/
inductive Device where
  | plain (spec : Text)
  | controller (driver : Text)
  | rootPort (id : DeviceId) (slot chassis : ℕ)
  | pciBridge (id bus : DeviceId)
  | rootDisk
  | virtioBlk (disknr br slot : ℕ)
  | ideHd (disknr : ℕ)
  | scsiHd (disknr : ℕ)
  | nvdimm (disknr : ℕ)
  deriving DecidableEq, Repr

def Device.spec : Device → Text
  | plain spec => spec
  | controller driver => driver ++ ",id=hba".toList
  | rootPort id slot chassis => "pcie-root-port,id=".toList ++ id.text ++ ",bus=pcie.0,slot=".toList ++
      Text.ofInt slot ++ ",chassis=".toList ++ Text.ofInt chassis
  | pciBridge id bus => "pcie-pci-bridge,id=".toList ++ id.text ++ ",bus=".toList ++ bus.text
  | rootDisk => "virtio-blk-pci,drive=disk0,id=dev0".toList
  | virtioBlk disknr br slot => "virtio-blk-pci,drive=disk".toList ++ Text.ofInt disknr ++
      ",bus=".toList ++ (DeviceId.bridge br).text ++ ",addr=".toList ++ hexText slot ++ ",id=dev".toList ++
      Text.ofInt disknr
  | ideHd disknr => "ide-hd,bus=hba.".toList ++ Text.ofInt ((disknr : ℤ) - 1) ++ ",drive=disk".toList ++
      Text.ofInt disknr ++ ",id=dev".toList ++ Text.ofInt disknr
  | scsiHd disknr => "scsi-hd,bus=hba.0,drive=disk".toList ++ Text.ofInt disknr ++ ",id=dev".toList ++
      Text.ofInt disknr
  | nvdimm disknr => "nvdimm,memdev=mem".toList ++ Text.ofInt disknr ++ ",id=nv".toList ++
      Text.ofInt disknr ++ ",label-size=2M".toList

/-- The id of a device, where the specification has one. -/
def Device.id : Device → Option DeviceId
  | plain _ => none
  | controller _ => some .hba
  | rootPort id _ _ | pciBridge id _ => some id
  | rootDisk => some (.dev 0)
  | virtioBlk disknr _ _ | ideHd disknr | scsiHd disknr => some (.dev disknr)
  | nvdimm disknr => some (.nv disknr)

inductive Arg where
  | device (d : Device)
  | drive (spec : Text)
  | object (spec : Text)
  deriving DecidableEq, Repr

/-- A disk as `qemu_disk` and `qemu_pmem` get it. -/
inductive Disk where
  | disk (options : Text)
  | pmem (options : Text)

def driveSpec (disknr : ℕ) (options : Text) : Text :=
  "if=none,format=raw,id=disk".toList ++ Text.ofInt disknr ++ ',' :: options

/-- The `-device` argument of a disk. The root disk does not depend on the bus. -/
def diskDevice (bus : StorageBus) (disknr : ℕ) : Device :=
  if disknr = 0 then .rootDisk
  else match bus with
    | .virtioBlk => .virtioBlk disknr ((disknr - 1) / 31) ((disknr - 1) % 31 + 1)
    | .ahci | .piix4Ide => .ideHd disknr
    | .hba _ => .scsiHd disknr

/-- The bridge and its root port, in front of the first disk behind it. -/
def bridgeArgs (bus : StorageBus) (disknr : ℕ) : List Arg :=
  if bus = .virtioBlk ∧ disknr ≠ 0 ∧ (disknr - 1) % 31 = 0 then
    let br := (disknr - 1) / 31
    [.device (.rootPort (.port br) (8 + br) (8 + br)), .device (.pciBridge (.bridge br) (.port br))]
  else []

/-- What `start_vm` has put together. -/
structure Vm where
  cmd : List Arg
  disknr : ℕ
  ktestQemuDrives : Text
  ktestQemuDevices : Text
  ktestScratchDevBase : ℕ
  /-- The disks so far. -/
  attached : List Disk

def qemuDisk (bus : StorageBus) (vm : Vm) (options : Text) : Vm :=
  let drive := driveSpec vm.disknr options
  let dev := diskDevice bus vm.disknr
  { vm with
    cmd := vm.cmd ++ (bridgeArgs bus vm.disknr ++ [.drive drive, .device dev])
    ktestQemuDrives := vm.ktestQemuDrives.pushLine drive
    ktestQemuDevices := vm.ktestQemuDevices.pushLine dev.spec
    disknr := vm.disknr + 1
    attached := vm.attached ++ [.disk options] }

def qemuPmem (vm : Vm) (options : Text) : Vm :=
  let dev := Device.nvdimm vm.disknr
  { vm with
    cmd := vm.cmd ++ [.object ("memory-backend-file,id=mem".toList ++ Text.ofInt vm.disknr ++
      ",share,".toList ++ options ++ ",align=128M".toList), .device dev]
    ktestQemuDrives := vm.ktestQemuDrives.pushLine []
    ktestQemuDevices := vm.ktestQemuDevices.pushLine dev.spec
    disknr := vm.disknr + 1
    attached := vm.attached ++ [.pmem options] }

/-- The variables that `start_vm` reads for the disks, and whether there is a `/nix/store`. -/
structure Config where
  ktestRootImage : Text
  ktestImages : List Text
  ktestRwImages : List Text
  ktestScratchDevSizes : List Text
  ktestScratchSlowdevs : List Text
  ktestPmemDevs : List Text
  ktestDio : Text
  ktestOut : Text
  nixStore : Bool

def baseArgs (bus : StorageBus) (c : Config) : List Arg :=
  [.device (.rootPort (.pci 1) 1 1), .device (.pciBridge (.pci 2) (.pci 1)),
    .device (.plain "virtio-serial".toList), .device (.plain "virtconsole,chardev=console".toList),
    .device (.plain "virtio-rng-pci".toList),
    .device (.plain "vhost-user-fs-pci,chardev=virtiofs,tag=host".toList)] ++
  (if c.nixStore then [.device (.plain "vhost-user-fs-pci,chardev=virtiofs-nix,tag=nix".toList)] else []) ++
  match bus with
  | .virtioBlk => []
  | .ahci => [.device (.controller "ahci".toList)]
  | .piix4Ide => [.device (.controller "piix4-ide".toList)]
  | .hba name => [.device (.controller name)]

def devFile (c : Config) (vm : Vm) : Text := c.ktestOut ++ "/vm/dev-".toList ++ Text.ofInt vm.disknr

def rootOptions (c : Config) : Text := "file=".toList ++ c.ktestRootImage ++ ",snapshot=on".toList

/-- What of an unquoted value stays in the word it ends: behind a blank the shell begins further
words, and `qemu_disk` and `qemu_pmem` read only the first. -/
def unquoted (value : Text) : Text := value.takeWhile (fun c => !(c == ' ' || c == '\t' || c == '\n'))

def imageOptions (c : Config) (file : Text) : Text :=
  "file=".toList ++ file ++ ",snapshot=on,cache.no-flush=on,cache.direct=".toList ++ unquoted c.ktestDio

def rwImageOptions (c : Config) (file : Text) : Text :=
  "file=".toList ++ file ++ ",cache.no-flush=on,cache.direct=".toList ++ unquoted c.ktestDio

def scratchOptions (c : Config) (vm : Vm) : Text := "file=".toList ++ devFile c vm ++ ",cache=unsafe".toList

def slowOptions (c : Config) (vm : Vm) : Text :=
  "file=".toList ++ devFile c vm ++ ",iops=300,bps=104857600".toList

def pmemOptions (c : Config) (vm : Vm) (size : Text) : Text :=
  "mem-path=".toList ++ devFile c vm ++ ",size=".toList ++ unquoted size

/-- `start_vm`, from the machine without disks to the last disk. -/
def startVm (bus : StorageBus) (c : Config) : Vm :=
  let vm : Vm := ⟨baseArgs bus c, 0, [], [], 0, []⟩
  let vm := qemuDisk bus vm (rootOptions c)
  let vm := c.ktestImages.foldl (fun vm file => qemuDisk bus vm (imageOptions c file)) vm
  let vm := c.ktestRwImages.foldl (fun vm file => qemuDisk bus vm (rwImageOptions c file)) vm
  let vm := { vm with ktestScratchDevBase := vm.disknr }
  let vm := c.ktestScratchDevSizes.foldl (fun vm _ => qemuDisk bus vm (scratchOptions c vm)) vm
  let vm := c.ktestScratchSlowdevs.foldl (fun vm _ => qemuDisk bus vm (slowOptions c vm)) vm
  c.ktestPmemDevs.foldl (fun vm size => qemuPmem vm (pmemOptions c vm size)) vm

def diskArgs (bus : StorageBus) (disknr : ℕ) : Disk → List Arg
  | .disk options =>
    bridgeArgs bus disknr ++ [.drive (driveSpec disknr options), .device (diskDevice bus disknr)]
  | .pmem options =>
    [.object ("memory-backend-file,id=mem".toList ++ Text.ofInt disknr ++ ",share,".toList ++ options ++
      ",align=128M".toList), .device (.nvdimm disknr)]

def argsOf (bus : StorageBus) (disks : List Disk) : List Arg := (disks.mapIdx (diskArgs bus)).flatten

def driveLine (disknr : ℕ) : Disk → Text
  | .disk options => driveSpec disknr options
  | .pmem _ => []

def deviceOf (bus : StorageBus) (disknr : ℕ) : Disk → Device
  | .disk _ => diskDevice bus disknr
  | .pmem _ => .nvdimm disknr

def deviceLine (bus : StorageBus) (disknr : ℕ) (d : Disk) : Text := (deviceOf bus disknr d).spec

theorem argsOf_concat (bus : StorageBus) (disks : List Disk) (d : Disk) :
    argsOf bus (disks ++ [d]) = argsOf bus disks ++ diskArgs bus disks.length d := by
  rw [argsOf, List.mapIdx_concat, List.flatten_concat, argsOf]

theorem mem_argsOf {bus : StorageBus} {disks : List Disk} {a : Arg} :
    a ∈ argsOf bus disks ↔ ∃ (n : ℕ) (d : Disk), disks[n]? = some d ∧ a ∈ diskArgs bus n d := by
  rw [argsOf, List.mem_flatten]
  constructor
  · rintro ⟨args, hargs, ha⟩
    obtain ⟨n, hn⟩ := List.mem_iff_getElem?.mp hargs
    rw [List.getElem?_mapIdx, Option.map_eq_some_iff] at hn
    obtain ⟨d, hd, rfl⟩ := hn
    exact ⟨n, d, hd, ha⟩
  · rintro ⟨n, d, hd, ha⟩
    refine ⟨diskArgs bus n d, List.mem_of_getElem? (i := n) ?_, ha⟩
    rw [List.getElem?_mapIdx, hd, Option.map_some]

theorem driveSpec_ne_nil (disknr : ℕ) (options : Text) : driveSpec disknr options ≠ [] := by
  unfold driveSpec
  exact List.append_ne_nil_of_right_ne_nil _ (List.cons_ne_nil ',' options)

theorem rootDisk_spec_ne_nil : Device.rootDisk.spec ≠ [] := by decide

/-- Attach a disk of either kind. -/
def attach (bus : StorageBus) (vm : Vm) : Disk → Vm
  | .disk options => qemuDisk bus vm options
  | .pmem options => qemuPmem vm options

/-- The machine is what the disks make it: the arguments of each behind one another, and a line
in both lists. -/
structure Attaches (bus : StorageBus) (base : List Arg) (vm : Vm) : Prop where
  disknr_eq : vm.disknr = vm.attached.length
  cmd_eq : vm.cmd = base ++ argsOf bus vm.attached
  drives_eq : vm.ktestQemuDrives = Text.joinLines (vm.attached.mapIdx driveLine)
  devices_eq : vm.ktestQemuDevices = Text.joinLines (vm.attached.mapIdx (deviceLine bus))
  root : ∃ options rest, vm.attached = .disk options :: rest

theorem attaches_root (bus : StorageBus) (base : List Arg) (options : Text) (n : ℕ) :
    Attaches bus base (qemuDisk bus ⟨base, 0, [], [], n, []⟩ options) where
  disknr_eq := rfl
  cmd_eq := by simp [qemuDisk, argsOf, diskArgs]
  drives_eq := by simp [qemuDisk, Text.pushLine, Text.joinLines, driveLine]
  devices_eq := by simp [qemuDisk, Text.pushLine, Text.joinLines, deviceLine, deviceOf]
  root := ⟨options, [], rfl⟩

theorem Attaches.attach {bus : StorageBus} {base : List Arg} {vm : Vm} (h : Attaches bus base vm)
    (d : Disk) : Attaches bus base (attach bus vm d) := by
  obtain ⟨options, rest, hroot⟩ := h.root
  have hdrives : ∀ line, vm.ktestQemuDrives.pushLine line =
      Text.joinLines (vm.attached.mapIdx driveLine ++ [line]) := by
    intro line
    rw [h.drives_eq, hroot, List.mapIdx_cons]
    exact Text.pushLine_joinLines (driveSpec_ne_nil 0 options) _ line
  have hdevices : ∀ line, vm.ktestQemuDevices.pushLine line =
      Text.joinLines (vm.attached.mapIdx (deviceLine bus) ++ [line]) := by
    intro line
    rw [h.devices_eq, hroot, List.mapIdx_cons]
    exact Text.pushLine_joinLines rootDisk_spec_ne_nil _ line
  cases d with
  | disk o =>
    refine ⟨?_, ?_, ?_, ?_, ?_⟩
    · simp [Qemu.attach, qemuDisk, h.disknr_eq]
    · simp only [Qemu.attach, qemuDisk]
      rw [argsOf_concat, h.cmd_eq, h.disknr_eq, List.append_assoc]
      rfl
    · simp only [Qemu.attach, qemuDisk]
      rw [hdrives, List.mapIdx_concat, h.disknr_eq]
      rfl
    · simp only [Qemu.attach, qemuDisk]
      rw [hdevices, List.mapIdx_concat, h.disknr_eq]
      rfl
    · exact ⟨options, rest ++ [.disk o], by simp [Qemu.attach, qemuDisk, hroot]⟩
  | pmem o =>
    refine ⟨?_, ?_, ?_, ?_, ?_⟩
    · simp [Qemu.attach, qemuPmem, h.disknr_eq]
    · simp only [Qemu.attach, qemuPmem]
      rw [argsOf_concat, h.cmd_eq, h.disknr_eq, List.append_assoc]
      rfl
    · simp only [Qemu.attach, qemuPmem]
      rw [hdrives, List.mapIdx_concat]
      rfl
    · simp only [Qemu.attach, qemuPmem]
      rw [hdevices, List.mapIdx_concat, h.disknr_eq]
      rfl
    · exact ⟨options, rest ++ [.pmem o], by simp [Qemu.attach, qemuPmem, hroot]⟩

theorem Attaches.foldl {bus : StorageBus} {base : List Arg} {vm : Vm} (h : Attaches bus base vm)
    {α : Type} (disk : Vm → α → Disk) (as : List α) :
    Attaches bus base (as.foldl (fun vm a => Qemu.attach bus vm (disk vm a)) vm) := by
  induction as generalizing vm with
  | nil => exact h
  | cons a as ih => exact ih (h.attach (disk vm a))

theorem Attaches.setBase {bus : StorageBus} {base : List Arg} {vm : Vm} (h : Attaches bus base vm) :
    Attaches bus base { vm with ktestScratchDevBase := vm.disknr } :=
  ⟨h.disknr_eq, h.cmd_eq, h.drives_eq, h.devices_eq, h.root⟩

theorem attaches_startVm (bus : StorageBus) (c : Config) :
    Attaches bus (baseArgs bus c) (startVm bus c) := by
  have hroot := attaches_root bus (baseArgs bus c) (rootOptions c) 0
  have himages := hroot.foldl (fun _ file => .disk (imageOptions c file)) c.ktestImages
  have hrw := himages.foldl (fun _ file => .disk (rwImageOptions c file)) c.ktestRwImages
  have hbase := Attaches.setBase hrw
  have hscratch := hbase.foldl (fun vm _ => .disk (scratchOptions c vm)) c.ktestScratchDevSizes
  have hslow := hscratch.foldl (fun vm _ => .disk (slowOptions c vm)) c.ktestScratchSlowdevs
  exact hslow.foldl (fun vm size => .pmem (pmemOptions c vm size)) c.ktestPmemDevs

inductive IdKind where
  | pci | hba | port | bridge | dev | nv
  deriving DecidableEq

def IdKind.stem : IdKind → Text
  | pci => "pci.".toList
  | hba => "hba".toList
  | port => "rp.blk".toList
  | bridge => "pci.blk".toList
  | dev => "dev".toList
  | nv => "nv".toList

def DeviceId.kind : DeviceId → IdKind
  | pci _ => .pci
  | hba => .hba
  | port _ => .port
  | bridge _ => .bridge
  | dev _ => .dev
  | nv _ => .nv

theorem IdKind.stem_injective {a b : IdKind} (h : a.stem = b.stem) : a = b := by
  revert h
  cases a <;> cases b <;> decide

theorem rdropWhile_append_ofInt {t : Text} (ht : t.rdropWhile Char.isDigit = t) (n : ℕ) :
    (t ++ Text.ofInt n).rdropWhile Char.isDigit = t := by
  have hdigits : ∀ c ∈ Text.ofInt n, c.isDigit = true := by
    intro c hc
    rw [Text.ofInt_natCast] at hc
    exact Nat.isDigit_of_mem_toDigits (by omega) (by omega) hc
  unfold List.rdropWhile at ht ⊢
  rw [List.reverse_append, List.dropWhile_append_of_pos (by simpa using hdigits), ht]

theorem DeviceId.rdropWhile_text (id : DeviceId) : id.text.rdropWhile Char.isDigit = id.kind.stem := by
  cases id with
  | pci nr => exact rdropWhile_append_ofInt (by decide) nr
  | hba => decide
  | port br => exact rdropWhile_append_ofInt (by decide) br
  | bridge br => exact rdropWhile_append_ofInt (by decide) br
  | dev disknr => exact rdropWhile_append_ofInt (by decide) disknr
  | nv disknr => exact rdropWhile_append_ofInt (by decide) disknr

/-- Two ids of different kinds differ in their stems, two of a kind in their numbers. -/
theorem DeviceId.text_injective : Function.Injective DeviceId.text := by
  intro a b h
  have hkind : a.kind = b.kind := by
    apply IdKind.stem_injective
    rw [← a.rdropWhile_text, h, b.rdropWhile_text]
  cases a <;> cases b <;> cases hkind <;> first
    | exact congrArg _ (Text.ofInt_natCast_inj (List.append_cancel_left h))
    | rfl

def Arg.id : Arg → Option DeviceId
  | device d => d.id
  | _ => none

def Arg.declares (a : Arg) : Option Text := a.id.map DeviceId.text

/-- The bridge and the slot that an argument puts a disk into. -/
def Arg.place : Arg → Option (ℕ × ℕ)
  | device (.virtioBlk _ br slot) => some (br, slot)
  | _ => none

def Arg.portSlot : Arg → Option ℕ
  | device (.rootPort _ slot _) => some slot
  | _ => none

def Arg.portChassis : Arg → Option ℕ
  | device (.rootPort _ _ chassis) => some chassis
  | _ => none

section Owners

variable {β : Type} {bus : StorageBus} {f : Arg → Option β} {owner : β → ℕ}

/-- Marks that the arguments of a disk leave, each once, and that tell which disk left them. -/
def OwnedBy (bus : StorageBus) (f : Arg → Option β) (owner : β → ℕ) : Prop :=
  ∀ n d, ∃ marks, (diskArgs bus n d).filterMap f = marks ∧ marks.Nodup ∧ ∀ b ∈ marks, owner b = n

theorem OwnedBy.owner_lt (h : OwnedBy bus f owner) {disks : List Disk} {b : β}
    (hb : b ∈ (argsOf bus disks).filterMap f) : owner b < disks.length := by
  obtain ⟨a, ha, hfa⟩ := List.mem_filterMap.mp hb
  obtain ⟨n, d, hn, had⟩ := mem_argsOf.mp ha
  obtain ⟨marks, hmarks, -, howner⟩ := h n d
  rw [howner b (hmarks ▸ List.mem_filterMap.mpr ⟨a, had, hfa⟩)]
  exact (List.getElem?_eq_some_iff.mp hn).1

theorem OwnedBy.nodup_argsOf (h : OwnedBy bus f owner) (disks : List Disk) :
    ((argsOf bus disks).filterMap f).Nodup := by
  induction disks using List.reverseRecOn with
  | nil => exact List.nodup_nil
  | append_singleton disks d ih =>
    obtain ⟨marks, hmarks, hnodup, howner⟩ := h disks.length d
    rw [argsOf_concat, List.filterMap_append, hmarks]
    refine List.nodup_append.mpr ⟨ih, hnodup, ?_⟩
    intro b hb b' hb' hbb'
    have hlt := h.owner_lt hb
    rw [hbb', howner b' hb'] at hlt
    omega

end Owners

theorem diskDevice_cases (n : ℕ) :
    (n = 0 ∧ diskDevice .virtioBlk n = .rootDisk) ∨ (n ≠ 0 ∧ ∃ br slot, 1 ≤ slot ∧ slot ≤ 31 ∧
      diskDevice .virtioBlk n = .virtioBlk n br slot) := by
  unfold diskDevice
  split_ifs with hn
  · exact .inl ⟨hn, rfl⟩
  · exact .inr ⟨hn, (n - 1) / 31, (n - 1) % 31 + 1, by omega, by omega, rfl⟩

theorem diskArgs_disk_cases (n : ℕ) (options : Text) :
    (n = 0 ∧ diskArgs .virtioBlk n (.disk options) =
      [.drive (driveSpec n options), .device .rootDisk]) ∨
    (∃ br slot, n = 31 * br + slot ∧ 2 ≤ slot ∧ slot ≤ 31 ∧ diskArgs .virtioBlk n (.disk options) =
      [.drive (driveSpec n options), .device (.virtioBlk n br slot)]) ∨
    ∃ br, n = 31 * br + 1 ∧ diskArgs .virtioBlk n (.disk options) =
      [.device (.rootPort (.port br) (8 + br) (8 + br)), .device (.pciBridge (.bridge br) (.port br)),
        .drive (driveSpec n options), .device (.virtioBlk n br 1)] := by
  by_cases hn : n = 0
  · subst hn
    exact .inl ⟨rfl, rfl⟩
  · by_cases hfirst : (n - 1) % 31 = 0
    · refine .inr (.inr ⟨(n - 1) / 31, by omega, ?_⟩)
      simp [diskArgs, bridgeArgs, diskDevice, hn, hfirst]
    · refine .inr (.inl ⟨(n - 1) / 31, (n - 1) % 31 + 1, by omega, by omega, by omega, ?_⟩)
      simp [diskArgs, bridgeArgs, diskDevice, hn, hfirst]

/-- The disk with whose arguments an id is declared. -/
def DeviceId.owner : DeviceId → ℕ
  | pci _ | hba => 0
  | port br | bridge br => 31 * br + 1
  | dev disknr | nv disknr => disknr

theorem ownedBy_id : OwnedBy .virtioBlk Arg.id DeviceId.owner := by
  intro n d
  cases d with
  | pmem options => exact ⟨[.nv n], rfl, by simp, by simp [DeviceId.owner]⟩
  | disk options =>
    obtain ⟨hn, h⟩ | ⟨br, slot, -, -, -, h⟩ | ⟨br, hn, h⟩ := diskArgs_disk_cases n options
    · exact ⟨[.dev 0], by rw [h]; rfl, by simp, by simp [DeviceId.owner, hn]⟩
    · exact ⟨[.dev n], by rw [h]; rfl, by simp, by simp [DeviceId.owner]⟩
    · exact ⟨[.port br, .bridge br, .dev n], by rw [h]; rfl, by simp, by simp [DeviceId.owner, hn]⟩

theorem ownedBy_place : OwnedBy .virtioBlk Arg.place (fun place => 31 * place.1 + place.2) := by
  intro n d
  cases d with
  | pmem options => exact ⟨[], rfl, by simp, by simp⟩
  | disk options =>
    obtain ⟨-, h⟩ | ⟨br, slot, hn, -, -, h⟩ | ⟨br, hn, h⟩ := diskArgs_disk_cases n options
    · exact ⟨[], by rw [h]; rfl, by simp, by simp⟩
    · exact ⟨[(br, slot)], by rw [h]; rfl, by simp, by simp [hn]⟩
    · exact ⟨[(br, 1)], by rw [h]; rfl, by simp, by simp [hn]⟩

theorem ownedBy_port {f : Arg → Option ℕ} (hf : f = Arg.portSlot ∨ f = Arg.portChassis) :
    OwnedBy .virtioBlk f (fun number => 31 * (number - 8) + 1) := by
  intro n d
  cases d with
  | pmem options => exact ⟨[], by rcases hf with rfl | rfl <;> rfl, by simp, by simp⟩
  | disk options =>
    obtain ⟨-, h⟩ | ⟨br, slot, -, -, -, h⟩ | ⟨br, hn, h⟩ := diskArgs_disk_cases n options
    · exact ⟨[], by rw [h]; rcases hf with rfl | rfl <;> rfl, by simp, by simp⟩
    · exact ⟨[], by rw [h]; rcases hf with rfl | rfl <;> rfl, by simp, by simp⟩
    · exact ⟨[8 + br], by rw [h]; rcases hf with rfl | rfl <;> rfl, by simp, by simp [hn]⟩

theorem forall_mem_filterMap_argsOf {β : Type} {bus : StorageBus} {f : Arg → Option β} {P : β → Prop}
    (h : ∀ n d, ∀ b ∈ (diskArgs bus n d).filterMap f, P b) (disks : List Disk) :
    ∀ b ∈ (argsOf bus disks).filterMap f, P b := by
  intro b hb
  obtain ⟨a, ha, hfa⟩ := List.mem_filterMap.mp hb
  obtain ⟨n, d, -, had⟩ := mem_argsOf.mp ha
  exact h n d b (List.mem_filterMap.mpr ⟨a, had, hfa⟩)

theorem port_ge {f : Arg → Option ℕ} (hf : f = Arg.portSlot ∨ f = Arg.portChassis) (disks : List Disk) :
    ∀ number ∈ (argsOf .virtioBlk disks).filterMap f, 8 ≤ number := by
  refine forall_mem_filterMap_argsOf ?_ disks
  intro n d
  cases d with
  | pmem options => rcases hf with rfl | rfl <;> simp [diskArgs, Arg.portSlot, Arg.portChassis]
  | disk options =>
    obtain ⟨-, h⟩ | ⟨br, slot, -, -, -, h⟩ | ⟨br, -, h⟩ := diskArgs_disk_cases n options
    all_goals
      rw [h]
      rcases hf with rfl | rfl <;> simp [Arg.portSlot, Arg.portChassis]

theorem id_ne_pci (disks : List Disk) :
    ∀ i ∈ (argsOf .virtioBlk disks).filterMap Arg.id, ∀ nr, i ≠ .pci nr := by
  refine forall_mem_filterMap_argsOf ?_ disks
  intro n d
  cases d with
  | pmem options => simp [diskArgs, Arg.id, Device.id]
  | disk options =>
    obtain ⟨-, h⟩ | ⟨br, slot, -, -, -, h⟩ | ⟨br, -, h⟩ := diskArgs_disk_cases n options
    all_goals
      rw [h]
      simp [Arg.id, Device.id]

theorem filterMap_baseArgs {β : Type} {f : Arg → Option β} (hplain : ∀ spec, f (.device (.plain spec)) = none)
    (c : Config) : (baseArgs .virtioBlk c).filterMap f =
      [Arg.device (.rootPort (.pci 1) 1 1), .device (.pciBridge (.pci 2) (.pci 1))].filterMap f := by
  unfold baseArgs
  split_ifs with hnix <;> simp [hplain, List.filterMap_cons]

/-- In front of a disk there is no persistent memory. -/
def DisksFirst (disks : List Disk) : Prop :=
  ∀ (m n : ℕ) (options : Text), m ≤ n → disks[n]? = some (.disk options) →
    ∃ options', disks[m]? = some (.disk options')

theorem DisksFirst.of_concat {disks : List Disk} {d : Disk} (h : DisksFirst (disks ++ [d])) :
    DisksFirst disks := by
  intro m n options hmn hn
  have hlt := (List.getElem?_eq_some_iff.mp hn).1
  obtain ⟨options', hm⟩ := h m n options hmn (by rwa [List.getElem?_append_left hlt])
  rw [List.getElem?_append_left (by omega)] at hm
  exact ⟨options', hm⟩

def bridgeOf (br : ℕ) : List Arg :=
  [.device (.rootPort (.port br) (8 + br) (8 + br)), .device (.pciBridge (.bridge br) (.port br))]

theorem bridgeArgs_first (br : ℕ) : bridgeArgs .virtioBlk (31 * br + 1) = bridgeOf br := by
  simp [bridgeArgs, bridgeOf]

/-- A disk that is not the first behind its bridge finds it declared. -/
theorem bridgeOf_subset_argsOf {disks : List Disk} {br : ℕ} {options : Text}
    (h : disks[31 * br + 1]? = some (.disk options)) : bridgeOf br ⊆ argsOf .virtioBlk disks := by
  intro a ha
  refine mem_argsOf.mpr ⟨31 * br + 1, .disk options, h, ?_⟩
  rw [diskArgs, bridgeArgs_first]
  exact List.mem_append_left _ ha

/-- The bridge of a disk is declared with the disks in front of it or with its own arguments. -/
theorem bridgeOf_subset_of_diskArgs {disks : List Disk} {d : Disk} (hdisks : DisksFirst (disks ++ [d]))
    {front post : List Arg} {n br slot : ℕ}
    (hargs : diskArgs .virtioBlk disks.length d = front ++ .device (.virtioBlk n br slot) :: post) :
    bridgeOf br ⊆ argsOf .virtioBlk disks ++ front := by
  cases d with
  | pmem options =>
    have hmem : Arg.device (.virtioBlk n br slot) ∈ diskArgs .virtioBlk disks.length (.pmem options) := by
      simp [hargs]
    simp [diskArgs] at hmem
  | disk options =>
    obtain ⟨-, h⟩ | ⟨br', slot', hn, htwo, -, h⟩ | ⟨br', -, h⟩ := diskArgs_disk_cases disks.length options
    all_goals
      have hmem : Arg.device (.virtioBlk n br slot) ∈ diskArgs .virtioBlk disks.length (.disk options) := by
        simp [hargs]
      rw [h] at hmem
      simp at hmem
    · obtain ⟨-, rfl, -⟩ := hmem
      -- the first disk behind the bridge comes earlier
      obtain ⟨options', hfirst⟩ := hdisks (31 * br + 1) disks.length options (by omega)
        (by rw [List.getElem?_append_right le_rfl]; simp)
      rw [List.getElem?_append_left (by omega)] at hfirst
      exact List.subset_append_of_subset_left _ (bridgeOf_subset_argsOf hfirst)
    · obtain ⟨-, rfl, -⟩ := hmem
      rw [h] at hargs
      rcases front with _ | ⟨a₁, _ | ⟨a₂, front⟩⟩
      · simp at hargs
      · simp at hargs
      · simp only [List.cons_append, List.cons.injEq] at hargs
        obtain ⟨rfl, rfl, -⟩ := hargs
        refine List.subset_append_of_subset_right _ ?_
        simp [bridgeOf]

theorem bridgeOf_subset_front {base : List Arg} (hbase : ∀ n br slot, .device (.virtioBlk n br slot) ∉ base)
    {disks : List Disk} (hdisks : DisksFirst disks) {pre post : List Arg} {n br slot : ℕ}
    (hcmd : base ++ argsOf .virtioBlk disks = pre ++ .device (.virtioBlk n br slot) :: post) :
    bridgeOf br ⊆ pre := by
  induction disks using List.reverseRecOn generalizing pre post with
  | nil =>
    refine absurd ?_ (hbase n br slot)
    have hall : base = pre ++ .device (.virtioBlk n br slot) :: post := by simpa [argsOf] using hcmd
    simp [hall]
  | append_singleton disks d ih =>
    rw [argsOf_concat, ← List.append_assoc, List.append_eq_append_iff] at hcmd
    obtain ⟨front, rfl, hargs⟩ | ⟨rest, hfront, hrest⟩ := hcmd
    · rw [List.append_assoc]
      exact List.subset_append_of_subset_right _ (bridgeOf_subset_of_diskArgs hdisks hargs)
    · cases rest with
      | nil =>
        have hargs : diskArgs .virtioBlk disks.length d = [] ++ .device (.virtioBlk n br slot) :: post :=
          hrest.symm
        rw [List.append_nil] at hfront
        rw [← hfront]
        have hsubset := bridgeOf_subset_of_diskArgs hdisks hargs
        rw [List.append_nil] at hsubset
        exact List.subset_append_of_subset_right _ hsubset
      | cons a rest =>
        rw [List.cons_append, List.cons.injEq] at hrest
        exact ih hdisks.of_concat (by rw [hfront, ← hrest.1])

/-- Disks have been added, all of whose options are one line exactly if a condition holds. -/
def Adds (vm vm' : Vm) (oneLine : Prop) : Prop :=
  ∃ os : List Text, vm'.attached = vm.attached ++ os.map .disk ∧ ((∀ o ∈ os, '\n' ∉ o) ↔ oneLine)

theorem adds_qemuDisk (bus : StorageBus) (vm : Vm) (options : Text) :
    Adds vm (qemuDisk bus vm options) ('\n' ∉ options) :=
  ⟨[options], rfl, by simp⟩

theorem Adds.trans {vm vm' vm'' : Vm} {P Q : Prop} (h : Adds vm vm' P) (h' : Adds vm' vm'' Q) :
    Adds vm vm'' (P ∧ Q) := by
  obtain ⟨os, hos, hP⟩ := h
  obtain ⟨os', hos', hQ⟩ := h'
  refine ⟨os ++ os', ?_, ?_⟩
  · rw [hos', hos, List.map_append, List.append_assoc]
  · rw [List.forall_mem_append, hP, hQ]

theorem Adds.setBase {vm vm' : Vm} {P : Prop} (h : Adds vm vm' P) :
    Adds vm { vm' with ktestScratchDevBase := vm'.disknr } P := h

theorem Adds.foldl {vm vm' : Vm} {P : Prop} (h : Adds vm vm' P) (bus : StorageBus) {α : Type}
    {options : Vm → α → Text} {Bad : α → Prop} (hbad : ∀ vm a, '\n' ∈ options vm a ↔ Bad a) (as : List α) :
    Adds vm (as.foldl (fun vm a => qemuDisk bus vm (options vm a)) vm') (P ∧ ∀ a ∈ as, ¬ Bad a) := by
  refine h.trans ?_
  clear h
  induction as generalizing vm' with
  | nil => exact ⟨[], by simp, by simp⟩
  | cons a as ih =>
    have hrest := (adds_qemuDisk bus vm' (options vm' a)).trans ih
    rw [hbad] at hrest
    rw [List.forall_mem_cons]
    exact hrest

theorem foldl_qemuPmem_attached {α : Type} (options : Vm → α → Text) (as : List α) (vm : Vm) :
    ∃ os : List Text, (as.foldl (fun vm a => qemuPmem vm (options vm a)) vm).attached =
      vm.attached ++ os.map .pmem := by
  induction as generalizing vm with
  | nil => exact ⟨[], by simp⟩
  | cons a as ih =>
    obtain ⟨os, hos⟩ := ih (qemuPmem vm (options vm a))
    exact ⟨options vm a :: os, by rw [List.foldl_cons, hos]; simp [qemuPmem]⟩

/-- The files behind the drives have no newline in their paths. -/
structure Config.OneLine (c : Config) : Prop where
  root : '\n' ∉ c.ktestRootImage
  images : ∀ file ∈ c.ktestImages, '\n' ∉ file
  rwImages : ∀ file ∈ c.ktestRwImages, '\n' ∉ file
  out : c.ktestScratchDevSizes ≠ [] ∨ c.ktestScratchSlowdevs ≠ [] → '\n' ∉ c.ktestOut

theorem newline_mem_devFile (c : Config) (vm : Vm) : '\n' ∈ devFile c vm ↔ '\n' ∈ c.ktestOut := by
  have hlit : '\n' ∉ "/vm/dev-".toList := by decide
  have hnr := Text.notMem_ofInt (c := '\n') (by decide) (by decide) vm.disknr
  unfold devFile
  rw [List.mem_append, List.mem_append, or_iff_left hnr, or_iff_left hlit]

theorem newline_mem_between {before value after : Text} (hbefore : '\n' ∉ before) (hafter : '\n' ∉ after) :
    '\n' ∈ before ++ value ++ after ↔ '\n' ∈ value := by
  rw [List.mem_append, List.mem_append, or_iff_left hafter, or_iff_right hbefore]

theorem newline_notMem_unquoted (value : Text) : '\n' ∉ unquoted value := by
  intro h
  simpa using List.mem_takeWhile_imp h

theorem newline_mem_imageOptions (c : Config) (file : Text) : '\n' ∈ imageOptions c file ↔ '\n' ∈ file := by
  unfold imageOptions
  rw [List.mem_append, or_iff_left (newline_notMem_unquoted c.ktestDio),
    newline_mem_between (by decide) (by decide)]

theorem newline_mem_rwImageOptions (c : Config) (file : Text) :
    '\n' ∈ rwImageOptions c file ↔ '\n' ∈ file := by
  unfold rwImageOptions
  rw [List.mem_append, or_iff_left (newline_notMem_unquoted c.ktestDio),
    newline_mem_between (by decide) (by decide)]

theorem newline_mem_scratchOptions (c : Config) (vm : Vm) :
    '\n' ∈ scratchOptions c vm ↔ '\n' ∈ c.ktestOut := by
  rw [← newline_mem_devFile c vm]
  exact newline_mem_between (by decide) (by decide)

theorem newline_mem_slowOptions (c : Config) (vm : Vm) :
    '\n' ∈ slowOptions c vm ↔ '\n' ∈ c.ktestOut := by
  rw [← newline_mem_devFile c vm]
  exact newline_mem_between (by decide) (by decide)

theorem Config.oneLine_iff (c : Config) : c.OneLine ↔ '\n' ∉ rootOptions c ∧
    (∀ file ∈ c.ktestImages, ¬ '\n' ∈ file) ∧
    (∀ file ∈ c.ktestRwImages, ¬ '\n' ∈ file) ∧
    (∀ size ∈ c.ktestScratchDevSizes, ¬ '\n' ∈ c.ktestOut) ∧
    ∀ size ∈ c.ktestScratchSlowdevs, ¬ '\n' ∈ c.ktestOut := by
  have hroot : '\n' ∈ rootOptions c ↔ '\n' ∈ c.ktestRootImage :=
    newline_mem_between (by decide) (by decide)
  rw [hroot]
  constructor
  · intro h
    refine ⟨h.root, h.images, h.rwImages, ?_, ?_⟩
    · exact fun size hsize => h.out (.inl (List.ne_nil_of_mem hsize))
    · exact fun size hsize => h.out (.inr (List.ne_nil_of_mem hsize))
  · rintro ⟨hroot, himages, hrw, hscratch, hslow⟩
    refine ⟨hroot, himages, hrw, ?_⟩
    rintro (hne | hne)
    · obtain ⟨size, hsize⟩ := List.exists_mem_of_ne_nil _ hne
      exact hscratch size hsize
    · obtain ⟨size, hsize⟩ := List.exists_mem_of_ne_nil _ hne
      exact hslow size hsize

theorem startVm_attached (bus : StorageBus) (c : Config) : ∃ os ps : List Text,
    (startVm bus c).attached = os.map .disk ++ ps.map .pmem ∧ ((∀ o ∈ os, '\n' ∉ o) ↔ c.OneLine) := by
  have hroot := adds_qemuDisk bus ⟨baseArgs bus c, 0, [], [], 0, []⟩ (rootOptions c)
  have himages := hroot.foldl bus (fun _ => newline_mem_imageOptions c) c.ktestImages
  have hrw := himages.foldl bus (fun _ => newline_mem_rwImageOptions c) c.ktestRwImages
  have hscratch := hrw.setBase.foldl bus (fun vm _ => newline_mem_scratchOptions c vm)
    c.ktestScratchDevSizes
  have hslow := hscratch.foldl bus (fun vm _ => newline_mem_slowOptions c vm) c.ktestScratchSlowdevs
  obtain ⟨os, hos, hlines⟩ := hslow
  obtain ⟨ps, hps⟩ := foldl_qemuPmem_attached (pmemOptions c) c.ktestPmemDevs _
  refine ⟨os, ps, hps.trans (congrArg (fun l => l ++ ps.map .pmem) hos), ?_⟩
  rw [hlines, c.oneLine_iff]
  tauto

theorem startVm_oneLine (bus : StorageBus) {c : Config} (h : c.OneLine) {n : ℕ} {options : Text}
    (hn : (startVm bus c).attached[n]? = some (.disk options)) : '\n' ∉ options := by
  obtain ⟨os, ps, hattached, hlines⟩ := startVm_attached bus c
  refine hlines.mpr h options ?_
  rw [hattached] at hn
  simpa using List.mem_of_getElem? hn

theorem disksFirst_append (os ps : List Text) : DisksFirst (os.map .disk ++ ps.map .pmem) := by
  intro m n options hmn hn
  have hlt : n < os.length := by
    by_contra hge
    rw [List.getElem?_append_right (by simpa using hge), List.getElem?_map, Option.map_eq_some_iff] at hn
    obtain ⟨o, -, ho⟩ := hn
    cases ho
  refine ⟨os[m], ?_⟩
  rw [List.getElem?_append_left (by simp; omega), List.getElem?_map, List.getElem?_eq_getElem (by omega),
    Option.map_some]

/-- The arguments of the disks and the lists of them are in order. -/
structure InOrder (vm : Vm) : Prop where
  /-- Every disk past the root disk has a slot of a bridge. -/
  placed : ∀ (n : ℕ) (options : Text), n ≠ 0 → vm.attached[n]? = some (.disk options) →
    ∃ br slot, 1 ≤ slot ∧ slot ≤ 31 ∧ .device (.virtioBlk n br slot) ∈ vm.cmd
  /-- No slot is taken twice. -/
  apart : (vm.cmd.filterMap Arg.place).Nodup
  /-- A bridge and its root port are declared in front of the disks behind it. -/
  bridges : ∀ pre n br slot post, vm.cmd = pre ++ .device (.virtioBlk n br slot) :: post →
    bridgeOf br ⊆ pre
  /-- They are declared once. -/
  once : ∀ n br slot, .device (.virtioBlk n br slot) ∈ vm.cmd →
    (vm.cmd.filterMap Arg.declares).count (DeviceId.port br).text = 1 ∧
    (vm.cmd.filterMap Arg.declares).count (DeviceId.bridge br).text = 1
  slots : (vm.cmd.filterMap Arg.portSlot).Nodup
  chassis : (vm.cmd.filterMap Arg.portChassis).Nodup
  drives : ∀ (n : ℕ) (options : Text), vm.attached[n]? = some (.disk options) →
    .drive (driveSpec n options) ∈ vm.cmd ∧
    (vm.ktestQemuDrives.splitOn '\n')[n]? = some (driveSpec n options)
  noDrives : ∀ (n : ℕ) (options : Text), vm.attached[n]? = some (.pmem options) →
    (vm.ktestQemuDrives.splitOn '\n')[n]? = some []
  devices : ∀ (n : ℕ) (d : Disk), vm.attached[n]? = some d →
    ∃ dev, dev.id = some (match d with | .disk _ => .dev n | .pmem _ => .nv n) ∧ .device dev ∈ vm.cmd ∧
      (vm.ktestQemuDevices.splitOn '\n')[n]? = some dev.spec

theorem deviceOf_mem_diskArgs (bus : StorageBus) (n : ℕ) (d : Disk) :
    .device (deviceOf bus n d) ∈ diskArgs bus n d := by
  cases d <;> simp [diskArgs, deviceOf]

theorem newline_notMem_hexText {slot : ℕ} (h : slot ≤ 31) : '\n' ∉ hexText slot := by
  have hall : ∀ slot : Fin 32, '\n' ∉ hexText slot := by decide
  exact hall ⟨slot, by omega⟩

theorem newline_notMem_deviceLine (bus : StorageBus) (n : ℕ) (d : Disk) : '\n' ∉ deviceLine bus n d := by
  have hnr : ∀ i : ℤ, '\n' ∉ Text.ofInt i := fun i => Text.notMem_ofInt (by decide) (by decide) i
  cases d with
  | pmem options =>
    have hmem := List.not_mem_append (s := "nvdimm,memdev=mem".toList) (by decide) (hnr n)
    have hid := List.not_mem_append (List.not_mem_append hmem (t := ",id=nv".toList) (by decide)) (hnr n)
    exact List.not_mem_append hid (by decide)
  | disk options =>
    simp only [deviceLine, deviceOf, diskDevice]
    split_ifs with hzero
    · decide
    have hide : '\n' ∉ (Device.ideHd n).spec := by
      have hport := List.not_mem_append (s := "ide-hd,bus=hba.".toList) (by decide) (hnr ((n : ℤ) - 1))
      have hdrive := List.not_mem_append (List.not_mem_append hport (t := ",drive=disk".toList) (by decide)) (hnr n)
      exact List.not_mem_append (List.not_mem_append hdrive (t := ",id=dev".toList) (by decide)) (hnr n)
    cases bus with
    | virtioBlk =>
      have hdrive := List.not_mem_append (s := "virtio-blk-pci,drive=disk".toList) (by decide) (hnr n)
      have hbridge := List.not_mem_append (s := "pci.blk".toList) (by decide) (hnr ((n - 1) / 31 : ℕ))
      have hbus := List.not_mem_append (List.not_mem_append hdrive (t := ",bus=".toList) (by decide)) hbridge
      have haddr := List.not_mem_append (List.not_mem_append hbus (t := ",addr=".toList) (by decide))
        (newline_notMem_hexText (by omega : (n - 1) % 31 + 1 ≤ 31))
      exact List.not_mem_append (List.not_mem_append haddr (t := ",id=dev".toList) (by decide)) (hnr n)
    | ahci => exact hide
    | piix4Ide => exact hide
    | hba name =>
      have hdrive := List.not_mem_append (s := "scsi-hd,bus=hba.0,drive=disk".toList) (by decide) (hnr n)
      exact List.not_mem_append (List.not_mem_append hdrive (t := ",id=dev".toList) (by decide)) (hnr n)

theorem newline_mem_driveSpec {n : ℕ} {options : Text} : '\n' ∈ driveSpec n options ↔ '\n' ∈ options := by
  have hnr := Text.notMem_ofInt (c := '\n') (by decide) (by decide) n
  have hlit : '\n' ∉ "if=none,format=raw,id=disk".toList := by decide
  unfold driveSpec
  rw [List.mem_append, List.mem_append, List.mem_cons, or_iff_right (not_or.mpr ⟨hlit, hnr⟩),
    or_iff_right (by decide)]

section Lines

variable {bus : StorageBus} {base : List Arg} {vm : Vm}

theorem Attaches.attached_ne_nil (h : Attaches bus base vm) :
    vm.attached ≠ [] := by
  obtain ⟨options, rest, hroot⟩ := h.root
  rw [hroot]
  exact List.cons_ne_nil _ rest

/-- The lines of the drives are at their numbers, unless a drive has a newline. -/
theorem Attaches.drives_iff (h : Attaches bus base vm) :
    (∀ (n : ℕ) (d : Disk), vm.attached[n]? = some d →
      (vm.ktestQemuDrives.splitOn '\n')[n]? = some (driveLine n d)) ↔
      ∀ (n : ℕ) (options : Text), vm.attached[n]? = some (.disk options) → '\n' ∉ options := by
  rw [h.drives_eq, Text.getElem?_splitOn_joinLines_iff h.attached_ne_nil]
  constructor
  · intro hlines n options hn
    rw [← newline_mem_driveSpec (n := n)]
    exact hlines n (.disk options) hn
  · intro hlines n d hn
    cases d with
    | pmem options => exact List.not_mem_nil
    | disk options => exact mt newline_mem_driveSpec.mp (hlines n options hn)

theorem Attaches.devices (h : Attaches bus base vm) {n : ℕ} {d : Disk}
    (hd : vm.attached[n]? = some d) :
    (vm.ktestQemuDevices.splitOn '\n')[n]? = some (deviceLine bus n d) := by
  rw [h.devices_eq]
  exact (Text.getElem?_splitOn_joinLines_iff h.attached_ne_nil _).mpr
    (fun m d' _ => newline_notMem_deviceLine bus m d') n d hd

theorem Attaches.mem_cmd (h : Attaches bus base vm) {n : ℕ} {d : Disk} (hd : vm.attached[n]? = some d)
    {a : Arg} (ha : a ∈ diskArgs bus n d) : a ∈ vm.cmd := by
  rw [h.cmd_eq]
  exact List.mem_append_right _ (mem_argsOf.mpr ⟨n, d, hd, ha⟩)

end Lines

section Attached

variable {c : Config} {vm : Vm}

theorem Attaches.nodup_place (h : Attaches .virtioBlk (baseArgs .virtioBlk c) vm) :
    (vm.cmd.filterMap Arg.place).Nodup := by
  rw [h.cmd_eq, List.filterMap_append, filterMap_baseArgs (fun _ => rfl)]
  exact ownedBy_place.nodup_argsOf vm.attached

theorem Attaches.nodup_port (h : Attaches .virtioBlk (baseArgs .virtioBlk c) vm) {f : Arg → Option ℕ}
    (hf : f = Arg.portSlot ∨ f = Arg.portChassis) : (vm.cmd.filterMap f).Nodup := by
  have hplain : ∀ spec, f (.device (.plain spec)) = none := by
    rcases hf with rfl | rfl <;> exact fun _ => rfl
  have hown : [Arg.device (.rootPort (.pci 1) 1 1), .device (.pciBridge (.pci 2) (.pci 1))].filterMap f = [1] := by
    rcases hf with rfl | rfl <;> rfl
  rw [h.cmd_eq, List.filterMap_append, filterMap_baseArgs hplain, hown, List.singleton_append,
    List.nodup_cons]
  refine ⟨?_, (ownedBy_port hf).nodup_argsOf vm.attached⟩
  intro hmem
  have hge := port_ge hf vm.attached 1 hmem
  omega

theorem Attaches.nodup_declares (h : Attaches .virtioBlk (baseArgs .virtioBlk c) vm) :
    (vm.cmd.filterMap Arg.declares).Nodup := by
  have hids : (vm.cmd.filterMap Arg.id).Nodup := by
    rw [h.cmd_eq, List.filterMap_append, filterMap_baseArgs (fun _ => rfl)]
    refine List.nodup_append.mpr ⟨by decide, ownedBy_id.nodup_argsOf vm.attached, ?_⟩
    intro i hi j hj hij
    obtain ⟨nr, hnr⟩ : ∃ nr, i = .pci nr := by
      rcases List.mem_cons.mp hi with hi | hi
      · exact ⟨1, hi⟩
      · exact ⟨2, List.mem_singleton.mp hi⟩
    exact id_ne_pci vm.attached j hj nr (hij ▸ hnr)
  have htexts : vm.cmd.filterMap Arg.declares = (vm.cmd.filterMap Arg.id).map DeviceId.text := by
    rw [List.map_filterMap]
    rfl
  rw [htexts]
  exact hids.map DeviceId.text_injective

theorem count_declares (h : (vm.cmd.filterMap Arg.declares).Nodup) {a : Arg} (ha : a ∈ vm.cmd)
    {id : DeviceId} (hid : a.id = some id) : (vm.cmd.filterMap Arg.declares).count id.text = 1 := by
  refine List.count_eq_one_of_mem h (List.mem_filterMap.mpr ⟨a, ha, ?_⟩)
  rw [Arg.declares, hid, Option.map_some]

theorem Attaches.bridges (h : Attaches .virtioBlk (baseArgs .virtioBlk c) vm)
    (hdisks : DisksFirst vm.attached) {pre post : List Arg} {n br slot : ℕ}
    (hcmd : vm.cmd = pre ++ .device (.virtioBlk n br slot) :: post) : bridgeOf br ⊆ pre := by
  refine bridgeOf_subset_front ?_ hdisks (h.cmd_eq.symm.trans hcmd)
  intro n' br' slot' hmem
  have hplace : (br', slot') ∈ (baseArgs .virtioBlk c).filterMap Arg.place :=
    List.mem_filterMap.mpr ⟨_, hmem, rfl⟩
  rw [filterMap_baseArgs (fun _ => rfl)] at hplace
  cases hplace

theorem deviceOf_id (n : ℕ) (d : Disk) : (deviceOf .virtioBlk n d).id =
    some (match d with | .disk _ => .dev n | .pmem _ => .nv n) := by
  cases d with
  | pmem options => rfl
  | disk options =>
    obtain ⟨rfl, h⟩ | ⟨-, br, slot, -, -, h⟩ := diskDevice_cases n
    · rfl
    · rw [deviceOf, h]
      rfl

theorem Attaches.inOrder (h : Attaches .virtioBlk (baseArgs .virtioBlk c) vm)
    (hdisks : DisksFirst vm.attached)
    (hlines : ∀ (n : ℕ) (options : Text), vm.attached[n]? = some (.disk options) → '\n' ∉ options) :
    InOrder vm where
  placed n options hn hd := by
    obtain ⟨hzero, -⟩ | ⟨-, br, slot, hpos, hle, hdev⟩ := diskDevice_cases n
    · exact absurd hzero hn
    · refine ⟨br, slot, hpos, hle, h.mem_cmd hd ?_⟩
      rw [← hdev]
      exact deviceOf_mem_diskArgs .virtioBlk n (.disk options)
  apart := h.nodup_place
  bridges pre n br slot post hcmd := h.bridges hdisks hcmd
  once n br slot hmem := by
    obtain ⟨pre, post, hcmd⟩ := List.append_of_mem hmem
    have hbridge := h.bridges hdisks hcmd
    have hin : ∀ a ∈ bridgeOf br, a ∈ vm.cmd := by
      intro a ha
      rw [hcmd]
      exact List.mem_append_left _ (hbridge ha)
    exact ⟨count_declares h.nodup_declares (hin _ List.mem_cons_self) rfl,
      count_declares h.nodup_declares (hin _ (List.mem_cons_of_mem _ List.mem_cons_self)) rfl⟩
  slots := h.nodup_port (.inl rfl)
  chassis := h.nodup_port (.inr rfl)
  drives n options hd :=
    ⟨h.mem_cmd hd (by simp [diskArgs]), h.drives_iff.mpr hlines n (.disk options) hd⟩
  noDrives n options hd := h.drives_iff.mpr hlines n (.pmem options) hd
  devices n d hd := ⟨deviceOf .virtioBlk n d, deviceOf_id n d,
    h.mem_cmd hd (deviceOf_mem_diskArgs .virtioBlk n d), h.devices hd⟩

end Attached

/-- The disks of a machine are in order exactly if no drive has a newline in it, however many
there are. -/
theorem startVm_inOrder_iff (c : Config) : InOrder (startVm .virtioBlk c) ↔ c.OneLine := by
  obtain ⟨os, ps, hattached, hlines⟩ := startVm_attached .virtioBlk c
  have hattaches := attaches_startVm .virtioBlk c
  have hdisk : ∀ (n : ℕ) (o : Text), os[n]? = some o →
      (startVm .virtioBlk c).attached[n]? = some (.disk o) := by
    intro n o hn
    rw [hattached, List.getElem?_append_left (by simpa using (List.getElem?_eq_some_iff.mp hn).1),
      List.getElem?_map, hn, Option.map_some]
  rw [← hlines]
  constructor
  · intro h o ho
    obtain ⟨n, hn⟩ := List.mem_iff_getElem?.mp ho
    rw [← newline_mem_driveSpec (n := n)]
    exact Text.newline_notMem_splitOn (List.mem_of_getElem? (h.drives n o (hdisk n o hn)).2)
  · intro h
    exact hattaches.inOrder (hattached ▸ disksFirst_append os ps) (fun _ _ => startVm_oneLine .virtioBlk (hlines.mp h))

def newlineConfig : Config where
  ktestRootImage := "/srv/a\nb/root.amd64".toList
  ktestImages := []
  ktestRwImages := []
  ktestScratchDevSizes := []
  ktestScratchSlowdevs := []
  ktestPmemDevs := []
  ktestDio := "off".toList
  ktestOut := "/tmp/ktest-out".toList
  nixStore := false

/-- Its root disk has two lines in the list of drives. -/
theorem not_inOrder_newlineConfig : ¬ InOrder (startVm .virtioBlk newlineConfig) ∧
    ((startVm .virtioBlk newlineConfig).ktestQemuDrives.splitOn '\n')[0]? =
      some "if=none,format=raw,id=disk0,file=/srv/a".toList := by
  constructor
  · intro h
    have hline := (h.drives 0 (rootOptions newlineConfig) rfl).2
    exact Text.newline_notMem_splitOn (List.mem_of_getElem? hline)
      (newline_mem_driveSpec.mpr (by decide))
  · decide

end Qemu
end KtestCi
