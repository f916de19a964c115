import KtestCi.EventRuns
import KtestCi.QemuDisks
import KtestCi.TextMatches

/-!
# Taking scratch devices away and putting them back

`scratch_dev_unplug` deletes a scratch device under the id that its state file has, or under the
one of `start_vm` if there is no such file. `scratch_dev_plug` takes the arguments of the disk
from the lists of `start_vm`, puts new ids into them by textual substitution and writes the state
file. The files are in the temporary directory of a run of the tests, so that the next subtest
finds them, but not the next run in the same machine.
-/

namespace KtestCi
namespace Qemu

open EventRuns

def fields (spec : Text) : List Text := spec.splitOn ','

/-- The value of a field; the key has its `=` at the end. -/
def fieldOf (key spec : Text) : Option Text :=
  ((fields spec).find? (fun f => key.isPrefixOf f)).map (fun f => f.drop key.length)

def otherFields (keys : List Text) (spec : Text) : List Text :=
  (fields spec).filter (fun f => !keys.any (fun key => key.isPrefixOf f))

theorem forall_ne_comma {f : Text} (hf : ',' ∉ f) : ∀ c ∈ f, (c == ',') = false := by
  intro c hc
  rw [beq_eq_false_iff_ne]
  rintro rfl
  exact hf hc

theorem fields_cons {f : Text} (hf : ',' ∉ f) (rest : Text) :
    fields (f ++ ',' :: rest) = f :: fields rest := by
  rw [fields, List.splitOn_eq_splitOnP,
    List.splitOnP_append_cons_of_forall_mem (forall_ne_comma hf) ',' (by decide), fields,
    List.splitOn_eq_splitOnP]

theorem fields_singleton {f : Text} (hf : ',' ∉ f) : fields f = [f] := by
  rw [fields, List.splitOn_eq_splitOnP, List.splitOnP_eq_singleton (forall_ne_comma hf)]

def prependFields (fs : List Text) (rest : Text) : Text := fs.flatMap (fun f => f ++ [',']) ++ rest

theorem prependFields_nil (rest : Text) : prependFields [] rest = rest := rfl

theorem prependFields_cons (f : Text) (fs : List Text) (rest : Text) :
    prependFields (f :: fs) rest = f ++ ',' :: prependFields fs rest := by
  simp [prependFields]

theorem prependFields_append (fs gs : List Text) (rest : Text) :
    prependFields (fs ++ gs) rest = prependFields fs (prependFields gs rest) := by
  unfold prependFields
  rw [List.flatMap_append, List.append_assoc]

theorem fields_prependFields {fs : List Text} (h : ∀ f ∈ fs, ',' ∉ f) (rest : Text) :
    fields (prependFields fs rest) = fs ++ fields rest := by
  induction fs with
  | nil => rfl
  | cons f fs ih =>
    rw [List.forall_mem_cons] at h
    rw [prependFields_cons, fields_cons h.1, ih h.2, List.cons_append]

/-- A state file: whether the guest has the device, its id and its generation. -/
structure DevState where
  present : Bool
  id : Text
  gen : ℕ

inductive MonitorCommand
  | deviceDel (id : Text)
  | driveAdd (drive : Text)
  | deviceAdd (spec : Text)
  deriving DecidableEq

/-- The state of a scratch device. Without a file it is as `start_vm` attached it. -/
def scratchDevState (vm : Vm) (files : ℕ → Option DevState) (i : ℕ) : DevState :=
  (files i).getD ⟨true, "dev".toList ++ Text.ofInt ((vm.ktestScratchDevBase + i : ℕ)), 0⟩

/-- The arguments for a device to put back, from the lines of the two lists. Without a line the
call ends with an error. -/
def plugArgs (vm : Vm) (i gen : ℕ) : Option (Text × Text) :=
  let nr := vm.ktestScratchDevBase + i
  let spec := (vm.ktestQemuDevices.splitOn '\n')[nr]?.getD []
  let drive := (vm.ktestQemuDrives.splitOn '\n')[nr]?.getD []
  if spec.isEmpty || drive.isEmpty then none
  else
    let generation := 'p' :: Text.ofInt gen
    let drive := Text.replaceFirst ("id=disk".toList ++ (Text.ofInt nr ++ [',']))
      ("id=disk".toList ++ Text.ofInt nr ++ generation ++ [',']) drive
    let spec := Text.replaceFirst ("drive=disk".toList ++ (Text.ofInt nr ++ [',']))
      ("drive=disk".toList ++ Text.ofInt nr ++ generation ++ [',']) spec
    let spec := Text.replaceFirst ("id=dev".toList ++ Text.ofInt nr)
      ("id=dev".toList ++ Text.ofInt nr ++ generation) spec
    some (drive, spec)

/-- A call, with the id that the device had in the machine, the ids of drives and devices that
the machine had seen, and what was asked for. -/
structure HotplugCall where
  index : ℕ
  plug : Bool
  attached : Option Text
  drives : List Text
  devices : List Text
  commands : List MonitorCommand
  deriving DecidableEq

/-- The state files, and what the machine has seen. -/
structure Hotplug where
  files : ℕ → Option DevState
  attached : ℕ → Option Text
  drives : List Text
  devices : List Text
  calls : List HotplugCall

/-- A subtest begins in a shell of its own; a run of the tests begins in a new process, with a
temporary directory of its own. -/
inductive HotplugEvent
  | unplug (i : ℕ)
  | plug (i : ℕ)
  | subtest
  | restart

def Hotplug.call (s : Hotplug) (i : ℕ) (plug : Bool) (commands : List MonitorCommand) : HotplugCall :=
  ⟨i, plug, s.attached i, s.drives, s.devices, commands⟩

/-- A step, where all waits succeed. Each of the `count` devices is taken away and put back in
turn. -/
def hotplugStep (vm : Vm) (count : ℕ) (s : Hotplug) : HotplugEvent → Option Hotplug
  | .unplug i =>
    if i < count ∧ (s.attached i).isSome then
      let st := scratchDevState vm s.files i
      some { s with
        files := Function.update s.files i (some ⟨false, st.id, st.gen⟩)
        attached := Function.update s.attached i none
        calls := s.call i false [.deviceDel st.id] :: s.calls }
    else none
  | .plug i =>
    if i < count ∧ (s.attached i).isNone then
      let gen := (scratchDevState vm s.files i).gen + 1
      match plugArgs vm i gen with
      -- `exit 1` in front of the first command
      | none => some { s with calls := s.call i true [] :: s.calls }
      | some (drive, spec) =>
        let id := "dev".toList ++ Text.ofInt ((vm.ktestScratchDevBase + i : ℕ)) ++ 'p' :: Text.ofInt gen
        some { s with
          files := Function.update s.files i (some ⟨true, id, gen⟩)
          attached := Function.update s.attached i (fieldOf "id=".toList spec)
          drives := (fieldOf "id=".toList drive).toList ++ s.drives
          devices := (fieldOf "id=".toList spec).toList ++ s.devices
          calls := s.call i true [.driveAdd drive, .deviceAdd spec] :: s.calls }
    else none
  | .subtest => some s
  -- `ktest_exit` of the old process removes its directory
  | .restart => some { s with files := fun _ => none }

def Arg.driveId : Arg → Option Text
  | .drive spec => fieldOf "id=".toList spec
  | _ => none

def hotplugStart (bus : StorageBus) (vm : Vm) : Hotplug where
  files := fun _ => none
  attached := fun i => vm.attached[vm.ktestScratchDevBase + i]?.bind (fun d =>
    fieldOf "id=".toList (deviceLine bus (vm.ktestScratchDevBase + i) d))
  drives := vm.cmd.filterMap Arg.driveId
  devices := vm.cmd.filterMap Arg.declares
  calls := []

def Config.scratchDevs (c : Config) : ℕ := c.ktestScratchDevSizes.length + c.ktestScratchSlowdevs.length

def HotplugCall.Deletes (r : HotplugCall) : Prop :=
  ∃ id, r.attached = some id ∧ r.commands = [.deviceDel id]

/-- Arguments that attach a disk of `start_vm` under other ids. -/
structure Reattaches (bus : StorageBus) (vm : Vm) (nr : ℕ) (drive spec driveId devId : Text) : Prop where
  drive_eq : ∃ options, .drive (driveSpec nr options) ∈ vm.cmd ∧
    otherFields ["id=".toList] drive = otherFields ["id=".toList] (driveSpec nr options)
  device_eq : .device (diskDevice bus nr) ∈ vm.cmd ∧ otherFields ["id=".toList, "drive=".toList] spec =
    otherFields ["id=".toList, "drive=".toList] (diskDevice bus nr).spec
  driveId_eq : fieldOf "id=".toList drive = some driveId
  devId_eq : fieldOf "id=".toList spec = some devId
  backed : fieldOf "drive=".toList spec = some driveId

/-- A device that is put back is the one of `start_vm`, with ids that the machine has not seen. -/
def HotplugCall.Restores (bus : StorageBus) (vm : Vm) (r : HotplugCall) : Prop :=
  ∃ drive spec driveId devId, r.commands = [.driveAdd drive, .deviceAdd spec] ∧
    Reattaches bus vm (vm.ktestScratchDevBase + r.index) drive spec driveId devId ∧
    driveId ∉ r.drives ∧ devId ∉ r.devices

def HotplugCall.Right (bus : StorageBus) (vm : Vm) (r : HotplugCall) : Prop :=
  if r.plug then r.Restores bus vm else r.Deletes

theorem foldl_qemuDisk_attached (bus : StorageBus) {α : Type} (options : Vm → α → Text) (as : List α)
    (vm : Vm) : ∃ os : List Text, os.length = as.length ∧
      (as.foldl (fun vm a => qemuDisk bus vm (options vm a)) vm).attached = vm.attached ++ os.map .disk ∧
      (as.foldl (fun vm a => qemuDisk bus vm (options vm a)) vm).ktestScratchDevBase =
        vm.ktestScratchDevBase := by
  induction as generalizing vm with
  | nil => exact ⟨[], rfl, by simp, rfl⟩
  | cons a as ih =>
    obtain ⟨os, hlen, hos, hbase⟩ := ih (qemuDisk bus vm (options vm a))
    refine ⟨options vm a :: os, by simp [hlen], ?_, hbase⟩
    rw [List.foldl_cons, hos]
    simp [qemuDisk]

theorem foldl_qemuPmem_base {α : Type} (options : Vm → α → Text) (as : List α) (vm : Vm) :
    (as.foldl (fun vm a => qemuPmem vm (options vm a)) vm).ktestScratchDevBase =
      vm.ktestScratchDevBase := by
  induction as generalizing vm with
  | nil => rfl
  | cons a as ih => exact ih (qemuPmem vm (options vm a))

/-- The last part of `start_vm`: scratch devices, slow ones and persistent memory. -/
def attachScratch (bus : StorageBus) (c : Config) (vm : Vm) : Vm :=
  let vm := { vm with ktestScratchDevBase := vm.disknr }
  let vm := c.ktestScratchDevSizes.foldl (fun vm _ => qemuDisk bus vm (scratchOptions c vm)) vm
  let vm := c.ktestScratchSlowdevs.foldl (fun vm _ => qemuDisk bus vm (slowOptions c vm)) vm
  c.ktestPmemDevs.foldl (fun vm size => qemuPmem vm (pmemOptions c vm size)) vm

theorem attachScratch_attached (bus : StorageBus) (c : Config) (vm : Vm) : ∃ os ps : List Text,
    (attachScratch bus c vm).attached = vm.attached ++ os.map .disk ++ ps.map .pmem ∧
      os.length = c.scratchDevs ∧ (attachScratch bus c vm).ktestScratchDevBase = vm.disknr := by
  unfold attachScratch
  obtain ⟨os, hlen, hos, hbase⟩ := foldl_qemuDisk_attached bus (fun vm _ => scratchOptions c vm)
    c.ktestScratchDevSizes { vm with ktestScratchDevBase := vm.disknr }
  obtain ⟨os', hlen', hos', hbase'⟩ := foldl_qemuDisk_attached bus (fun vm _ => slowOptions c vm)
    c.ktestScratchSlowdevs (c.ktestScratchDevSizes.foldl (fun vm _ => qemuDisk bus vm (scratchOptions c vm))
      { vm with ktestScratchDevBase := vm.disknr })
  obtain ⟨ps, hps⟩ := foldl_qemuPmem_attached (pmemOptions c) c.ktestPmemDevs
    (c.ktestScratchSlowdevs.foldl (fun vm _ => qemuDisk bus vm (slowOptions c vm))
      (c.ktestScratchDevSizes.foldl (fun vm _ => qemuDisk bus vm (scratchOptions c vm))
        { vm with ktestScratchDevBase := vm.disknr }))
  refine ⟨os ++ os', ps, ?_, ?_, ?_⟩
  · rw [hps, hos', hos, List.map_append, List.append_assoc vm.attached]
  · rw [List.length_append, hlen, hlen', Config.scratchDevs]
  · rw [foldl_qemuPmem_base, hbase', hbase]

/-- The scratch devices are the disks from the base on, and none of them is the root disk. -/
theorem startVm_scratch (bus : StorageBus) (c : Config) {i : ℕ} (hi : i < c.scratchDevs) :
    (startVm bus c).ktestScratchDevBase ≠ 0 ∧
      ∃ options, (startVm bus c).attached[(startVm bus c).ktestScratchDevBase + i]? = some (.disk options) := by
  have hroot := attaches_root bus (baseArgs bus c) (rootOptions c) 0
  have himages := hroot.foldl (fun _ file => .disk (imageOptions c file)) c.ktestImages
  obtain ⟨vm, hvm, hstart⟩ : ∃ vm, Attaches bus (baseArgs bus c) vm ∧
      startVm bus c = attachScratch bus c vm :=
    ⟨_, himages.foldl (fun _ file => .disk (rwImageOptions c file)) c.ktestRwImages, rfl⟩
  obtain ⟨os, ps, hattached, hlen, hbase⟩ := attachScratch_attached bus c vm
  obtain ⟨options, rest, hfront⟩ := hvm.root
  rw [hstart, hbase, hattached, hvm.disknr_eq]
  refine ⟨by simp [hfront], os[i], ?_⟩
  rw [List.append_assoc, List.getElem?_append_right (by omega), Nat.add_sub_cancel_left,
    List.getElem?_append_left (by simp; omega), List.getElem?_map, List.getElem?_eq_getElem (by omega),
    Option.map_some]

def plugDrive (nr gen : ℕ) : Text := "disk".toList ++ Text.ofInt nr ++ 'p' :: Text.ofInt gen

def plugDev (nr gen : ℕ) : Text := "dev".toList ++ Text.ofInt nr ++ 'p' :: Text.ofInt gen

def driveWith (id options : Text) : Text :=
  prependFields ["if=none".toList, "format=raw".toList] ("id=".toList ++ (id ++ ',' :: options))

def deviceWith (fs ms : List Text) (drive dev : Text) : Text :=
  prependFields fs ("drive=".toList ++ (drive ++ ',' :: prependFields ms ("id=".toList ++ dev)))

theorem driveSpec_eq (nr : ℕ) (options : Text) :
    driveSpec nr options = driveWith ("disk".toList ++ Text.ofInt nr) options := by
  have hlit : "if=none,format=raw,id=disk".toList =
      "if=none".toList ++ ',' :: ("format=raw".toList ++ ',' :: ("id=".toList ++ "disk".toList)) := by decide
  unfold driveSpec driveWith
  rw [hlit, prependFields_cons, prependFields_cons, prependFields_nil]
  simp only [List.append_assoc, List.cons_append]

section Specs

variable (nr : ℕ)

theorem idDev_eq : ",id=dev".toList = ',' :: ("id=".toList ++ "dev".toList) := by decide

theorem virtioBlk_spec_eq (br slot : ℕ) : (Device.virtioBlk nr br slot).spec =
    deviceWith ["virtio-blk-pci".toList] ["bus=pci.blk".toList ++ Text.ofInt br, "addr=".toList ++ hexText slot]
      ("disk".toList ++ Text.ofInt nr) ("dev".toList ++ Text.ofInt nr) := by
  have hdrive : "virtio-blk-pci,drive=disk".toList =
      "virtio-blk-pci".toList ++ ',' :: ("drive=".toList ++ "disk".toList) := by decide
  have hbus : ",bus=".toList ++ (DeviceId.bridge br).text = ',' :: ("bus=pci.blk".toList ++ Text.ofInt br) := rfl
  have haddr : ",addr=".toList = ',' :: "addr=".toList := by decide
  unfold Device.spec deviceWith
  dsimp only
  rw [hdrive, List.append_assoc _ ",bus=".toList, hbus, haddr, idDev_eq]
  simp only [prependFields_cons, prependFields_nil, List.append_assoc, List.cons_append]

theorem ideHd_spec_eq : (Device.ideHd nr).spec =
    deviceWith ["ide-hd".toList, "bus=hba.".toList ++ Text.ofInt ((nr : ℤ) - 1)] []
      ("disk".toList ++ Text.ofInt nr) ("dev".toList ++ Text.ofInt nr) := by
  have hport : "ide-hd,bus=hba.".toList = "ide-hd".toList ++ ',' :: "bus=hba.".toList := by decide
  have hdrive : ",drive=disk".toList = ',' :: ("drive=".toList ++ "disk".toList) := by decide
  unfold Device.spec deviceWith
  rw [hport, hdrive, idDev_eq]
  simp only [prependFields_cons, prependFields_nil, List.append_assoc, List.cons_append]

theorem scsiHd_spec_eq : (Device.scsiHd nr).spec =
    deviceWith ["scsi-hd".toList, "bus=hba.0".toList] []
      ("disk".toList ++ Text.ofInt nr) ("dev".toList ++ Text.ofInt nr) := by
  have hdrive : "scsi-hd,bus=hba.0,drive=disk".toList = "scsi-hd".toList ++ ',' :: ("bus=hba.0".toList ++
      ',' :: ("drive=".toList ++ "disk".toList)) := by decide
  unfold Device.spec deviceWith
  rw [hdrive, idDev_eq]
  simp only [prependFields_cons, prependFields_nil, List.append_assoc, List.cons_append]

end Specs

/-- A field in which the substitutions find nothing, and which begins nothing that they look for. -/
structure PlainField (f : Text) : Prop where
  comma : ',' ∉ f
  clearId : Text.Clear "id=".toList (f ++ [','])
  clearDrive : Text.Clear "drive=".toList (f ++ [','])

instance (f : Text) : Decidable (PlainField f) :=
  decidable_of_iff (',' ∉ f ∧ Text.Clear "id=".toList (f ++ [',']) ∧ Text.Clear "drive=".toList (f ++ [',']))
    ⟨fun h => ⟨h.1, h.2.1, h.2.2⟩, fun h => ⟨h.comma, h.clearId, h.clearDrive⟩⟩

theorem clear_append_ofInt {c : Char} {key f : Text} (h : Text.Clear (c :: key) f)
    (hc : c ∉ [',', '-']) (hdigit : c.isDigit = false) (i : ℤ) :
    Text.Clear (c :: key) (f ++ Text.ofInt i ++ [',']) := by
  rw [List.append_assoc]
  refine h.append (Text.clear_of_notMem (List.not_mem_append (Text.notMem_ofInt ?_ hdigit i) ?_))
  · exact fun hsign => hc (by simp [hsign])
  · exact fun hcomma => hc (by simpa using .inl (List.mem_singleton.mp hcomma))

theorem plainField_append_ofInt {f : Text} (hcomma : ',' ∉ f) (hid : Text.Clear "id=".toList f)
    (hdrive : Text.Clear "drive=".toList f) (i : ℤ) : PlainField (f ++ Text.ofInt i) where
  comma := List.not_mem_append hcomma (Text.notMem_ofInt (by decide) (by decide) i)
  clearId := clear_append_ofInt hid (by decide) (by decide) i
  clearDrive := clear_append_ofInt hdrive (by decide) (by decide) i

theorem plainField_addr {slot : ℕ} (h : slot ≤ 31) : PlainField ("addr=".toList ++ hexText slot) := by
  have hall : ∀ slot : Fin 32, PlainField ("addr=".toList ++ hexText slot) := by decide +kernel
  exact hall ⟨slot, by omega⟩

theorem diskDevice_shape (bus : StorageBus) {nr : ℕ} (hnr : nr ≠ 0) : ∃ fs ms : List Text,
    (∀ f ∈ fs, PlainField f) ∧ (∀ f ∈ ms, PlainField f) ∧ (diskDevice bus nr).spec =
      deviceWith fs ms ("disk".toList ++ Text.ofInt nr) ("dev".toList ++ Text.ofInt nr) := by
  have hport : PlainField ("bus=hba.".toList ++ Text.ofInt ((nr : ℤ) - 1)) :=
    plainField_append_ofInt (by decide) (by decide) (by decide) _
  have hide := List.forall_mem_cons.mpr ⟨(by decide : PlainField "ide-hd".toList),
    List.forall_mem_singleton.mpr hport⟩
  unfold diskDevice
  rw [if_neg hnr]
  cases bus with
  | virtioBlk =>
    have hbridge : PlainField ("bus=pci.blk".toList ++ Text.ofInt ((nr - 1) / 31 : ℕ)) :=
      plainField_append_ofInt (by decide) (by decide) (by decide) _
    have haddr : PlainField ("addr=".toList ++ hexText ((nr - 1) % 31 + 1)) := plainField_addr (by omega)
    exact ⟨_, _, List.forall_mem_singleton.mpr (by decide),
      List.forall_mem_cons.mpr ⟨hbridge, List.forall_mem_singleton.mpr haddr⟩, virtioBlk_spec_eq nr _ _⟩
  | ahci => exact ⟨_, _, hide, List.forall_mem_nil _, ideHd_spec_eq nr⟩
  | piix4Ide => exact ⟨_, _, hide, List.forall_mem_nil _, ideHd_spec_eq nr⟩
  | hba name =>
    exact ⟨_, _, List.forall_mem_cons.mpr ⟨by decide, List.forall_mem_singleton.mpr (by decide)⟩,
      List.forall_mem_nil _, scsiHd_spec_eq nr⟩

theorem clear_flatMap {p : Text} {fs : List Text} (h : ∀ f ∈ fs, Text.Clear p (f ++ [','])) :
    Text.Clear p (fs.flatMap (fun f => f ++ [','])) := by
  induction fs with
  | nil =>
    intro s hs hne
    exact absurd (by simpa using hs) hne
  | cons f fs ih =>
    rw [List.forall_mem_cons] at h
    rw [List.flatMap_cons]
    exact h.1.append (ih h.2)

theorem replaceFirst_prependFields {p : Text} (hp : p ≠ []) {fs : List Text}
    (h : ∀ f ∈ fs, Text.Clear p (f ++ [','])) (q rep rest : Text) :
    Text.replaceFirst (p ++ q) rep (prependFields fs (p ++ q ++ rest)) = prependFields fs (rep ++ rest) := by
  unfold prependFields
  rw [Text.replaceFirst_append (clear_flatMap h),
    Text.replaceFirst_self (List.append_ne_nil_of_left_ne_nil hp q)]

theorem replaceFirst_driveSpec (nr gen : ℕ) (options : Text) :
    Text.replaceFirst ("id=disk".toList ++ (Text.ofInt nr ++ [',']))
      ("id=disk".toList ++ Text.ofInt nr ++ 'p' :: Text.ofInt gen ++ [',']) (driveSpec nr options) =
      driveWith (plugDrive nr gen) options := by
  have hpat : "id=disk".toList ++ (Text.ofInt nr ++ [',']) =
      "id=".toList ++ ("disk".toList ++ Text.ofInt nr ++ [',']) := rfl
  have hrep : "id=disk".toList ++ Text.ofInt nr ++ 'p' :: Text.ofInt gen ++ [','] =
      "id=".toList ++ (plugDrive nr gen ++ [',']) := rfl
  have hspec : driveSpec nr options = prependFields ["if=none".toList, "format=raw".toList]
      ("id=".toList ++ ("disk".toList ++ Text.ofInt nr ++ [',']) ++ options) := by
    rw [driveSpec_eq]
    unfold driveWith
    simp only [List.append_assoc, List.singleton_append]
  rw [hpat, hrep, hspec, replaceFirst_prependFields (by decide) (by decide)]
  unfold driveWith
  simp only [List.append_assoc, List.singleton_append]

theorem deviceWith_eq (fs ms : List Text) (drive dev : Text) : deviceWith fs ms drive dev =
    prependFields (fs ++ ("drive=".toList ++ drive) :: ms) ("id=".toList ++ dev) := by
  unfold deviceWith
  rw [prependFields_append, prependFields_cons, List.append_assoc]

theorem clear_plugDrive (nr gen : ℕ) :
    Text.Clear "id=".toList ("drive=".toList ++ plugDrive nr gen ++ [',']) := by
  have hnr := Text.notMem_ofInt (c := 'i') (by decide) (by decide) nr
  have hgen := Text.notMem_ofInt (c := 'i') (by decide) (by decide) gen
  have hlit : Text.Clear "id=".toList "drive=disk".toList := by decide
  have hrest : 'i' ∉ Text.ofInt nr ++ ('p' :: Text.ofInt gen ++ [',']) := by
    simp [hnr, hgen]
  have hsplit : "drive=".toList ++ plugDrive nr gen ++ [','] =
      "drive=disk".toList ++ (Text.ofInt nr ++ ('p' :: Text.ofInt gen ++ [','])) := by
    have hdisk : "drive=disk".toList = "drive=".toList ++ "disk".toList := by decide
    unfold plugDrive
    rw [hdisk]
    simp only [List.append_assoc]
  rw [hsplit]
  exact hlit.append (Text.clear_of_notMem hrest)

section Shapes

variable {fs ms : List Text} (hfs : ∀ f ∈ fs, PlainField f) (hms : ∀ f ∈ ms, PlainField f)

include hfs in
theorem replaceFirst_drive (nr gen : ℕ) (dev : Text) :
    Text.replaceFirst ("drive=disk".toList ++ (Text.ofInt nr ++ [',']))
      ("drive=disk".toList ++ Text.ofInt nr ++ 'p' :: Text.ofInt gen ++ [','])
      (deviceWith fs ms ("disk".toList ++ Text.ofInt nr) dev) = deviceWith fs ms (plugDrive nr gen) dev := by
  have hpat : "drive=disk".toList ++ (Text.ofInt nr ++ [',']) =
      "drive=".toList ++ ("disk".toList ++ Text.ofInt nr ++ [',']) := rfl
  have hrep : "drive=disk".toList ++ Text.ofInt nr ++ 'p' :: Text.ofInt gen ++ [','] =
      "drive=".toList ++ (plugDrive nr gen ++ [',']) := rfl
  have hspec : ∀ drive, deviceWith fs ms drive dev =
      prependFields fs ("drive=".toList ++ (drive ++ [',']) ++ prependFields ms ("id=".toList ++ dev)) := by
    intro drive
    unfold deviceWith
    simp only [List.append_assoc, List.singleton_append]
  rw [hpat, hrep, hspec, hspec, replaceFirst_prependFields (by decide) (fun f hf => (hfs f hf).clearDrive)]

include hfs hms in
theorem replaceFirst_dev (nr gen : ℕ) :
    Text.replaceFirst ("id=dev".toList ++ Text.ofInt nr)
      ("id=dev".toList ++ Text.ofInt nr ++ 'p' :: Text.ofInt gen)
      (deviceWith fs ms (plugDrive nr gen) ("dev".toList ++ Text.ofInt nr)) =
      deviceWith fs ms (plugDrive nr gen) (plugDev nr gen) := by
  have hpat : "id=dev".toList ++ Text.ofInt nr = "id=".toList ++ ("dev".toList ++ Text.ofInt nr) := rfl
  have hrep : "id=dev".toList ++ Text.ofInt nr ++ 'p' :: Text.ofInt gen = "id=".toList ++ plugDev nr gen := rfl
  -- the new id of the drive is in front of the id of the device by now
  have hclear : ∀ f ∈ fs ++ ("drive=".toList ++ plugDrive nr gen) :: ms,
      Text.Clear "id=".toList (f ++ [',']) := by
    refine List.forall_mem_append.mpr ⟨fun f hf => (hfs f hf).clearId, ?_⟩
    exact List.forall_mem_cons.mpr ⟨clear_plugDrive nr gen, fun f hf => (hms f hf).clearId⟩
  have hreplace := replaceFirst_prependFields (by decide) hclear ("dev".toList ++ Text.ofInt nr)
    ("id=".toList ++ plugDev nr gen) []
  rw [List.append_nil, List.append_nil] at hreplace
  rw [hrep, hpat, deviceWith_eq, deviceWith_eq, hreplace]

end Shapes

theorem isPrefixOf_eq_false {key f : Text} (h : Text.Clear key (f ++ [','])) : key.isPrefixOf f = false := by
  rw [← Bool.not_eq_true, List.isPrefixOf_iff_prefix]
  intro hpre
  exact (h (f ++ [',']) (by simp) (by simp)).2 (hpre.trans (List.prefix_append f [',']))

theorem PlainField.not_id {f : Text} (hf : PlainField f) : "id=".toList.isPrefixOf f = false :=
  isPrefixOf_eq_false hf.clearId

theorem PlainField.not_drive {f : Text} (hf : PlainField f) : "drive=".toList.isPrefixOf f = false :=
  isPrefixOf_eq_false hf.clearDrive

/-- The first field with the key. -/
theorem fieldOf_eq {key spec v : Text} {front rest : List Text}
    (hfields : fields spec = front ++ (key ++ v) :: rest)
    (hfront : ∀ f ∈ front, key.isPrefixOf f = false) : fieldOf key spec = some v := by
  have hkey : key.isPrefixOf (key ++ v) = true := List.isPrefixOf_iff_prefix.mpr (List.prefix_append key v)
  have hnone : front.find? (fun f => key.isPrefixOf f) = none := by
    rw [List.find?_eq_none]
    intro f hf
    rw [hfront f hf]
    exact Bool.false_ne_true
  rw [fieldOf, hfields, List.find?_append, hnone, Option.none_or, List.find?_cons_of_pos hkey, Option.map_some,
    List.drop_left]

theorem fields_driveWith {id : Text} (hid : ',' ∉ id) (options : Text) : fields (driveWith id options) =
    ["if=none".toList, "format=raw".toList] ++ ("id=".toList ++ id) :: fields options := by
  unfold driveWith
  rw [fields_prependFields (by decide), ← List.append_assoc, fields_cons (List.not_mem_append (by decide) hid)]

theorem fieldOf_driveWith {id : Text} (hid : ',' ∉ id) (options : Text) :
    fieldOf "id=".toList (driveWith id options) = some id :=
  fieldOf_eq (fields_driveWith hid options) (by decide)

theorem otherFields_driveWith {id : Text} (hid : ',' ∉ id) (options : Text) :
    otherFields ["id=".toList] (driveWith id options) =
      ["if=none".toList, "format=raw".toList] ++ otherFields ["id=".toList] options := by
  have hfront : ["if=none".toList, "format=raw".toList].filter
      (fun f => !(["id=".toList].any (fun key => key.isPrefixOf f))) = ["if=none".toList, "format=raw".toList] := by
    decide
  unfold otherFields
  rw [fields_driveWith hid, List.filter_append, hfront, List.filter_cons_of_neg (by simp)]

section Shapes

variable {fs ms : List Text} (hfs : ∀ f ∈ fs, PlainField f) (hms : ∀ f ∈ ms, PlainField f)
variable {drive dev : Text} (hdrive : ',' ∉ drive) (hdev : ',' ∉ dev)

include hfs hms hdrive hdev

theorem fields_deviceWith : fields (deviceWith fs ms drive dev) =
    (fs ++ ("drive=".toList ++ drive) :: ms) ++ [("id=".toList ++ dev)] := by
  have hcommas : ∀ f ∈ fs ++ ("drive=".toList ++ drive) :: ms, ',' ∉ f := by
    refine List.forall_mem_append.mpr ⟨fun f hf => (hfs f hf).comma, ?_⟩
    exact List.forall_mem_cons.mpr ⟨List.not_mem_append (by decide) hdrive, fun f hf => (hms f hf).comma⟩
  rw [deviceWith_eq, fields_prependFields hcommas, fields_singleton (List.not_mem_append (by decide) hdev)]

theorem fieldOf_id_deviceWith : fieldOf "id=".toList (deviceWith fs ms drive dev) = some dev := by
  refine fieldOf_eq (fields_deviceWith hfs hms hdrive hdev) ?_
  refine List.forall_mem_append.mpr ⟨fun f hf => (hfs f hf).not_id, ?_⟩
  exact List.forall_mem_cons.mpr ⟨rfl, fun f hf => (hms f hf).not_id⟩

theorem fieldOf_drive_deviceWith : fieldOf "drive=".toList (deviceWith fs ms drive dev) = some drive := by
  have hfields := fields_deviceWith hfs hms hdrive hdev
  rw [List.append_assoc, List.cons_append] at hfields
  exact fieldOf_eq hfields (fun f hf => (hfs f hf).not_drive)

theorem otherFields_deviceWith :
    otherFields ["id=".toList, "drive=".toList] (deviceWith fs ms drive dev) = fs ++ ms := by
  have hkeep : ∀ gs : List Text, (∀ f ∈ gs, PlainField f) →
      gs.filter (fun f => !(["id=".toList, "drive=".toList].any (fun key => key.isPrefixOf f))) = gs := by
    intro gs hgs
    rw [List.filter_eq_self]
    intro f hf
    simpa using ⟨(hgs f hf).not_id, (hgs f hf).not_drive⟩
  unfold otherFields
  rw [fields_deviceWith hfs hms hdrive hdev, List.filter_append, List.filter_append, hkeep fs hfs,
    List.filter_cons_of_neg (by simp), hkeep ms hms, List.filter_cons_of_neg (by simp),
    List.filter_nil, List.append_nil]

end Shapes

section Ids

variable (nr gen : ℕ)

theorem comma_notMem_ofInt (i : ℤ) : ',' ∉ Text.ofInt i := Text.notMem_ofInt (by decide) (by decide) i

theorem comma_notMem_disk : ',' ∉ "disk".toList ++ Text.ofInt nr :=
  List.not_mem_append (by decide) (comma_notMem_ofInt nr)

theorem comma_notMem_dev : ',' ∉ "dev".toList ++ Text.ofInt nr :=
  List.not_mem_append (by decide) (comma_notMem_ofInt nr)

theorem comma_notMem_plugDrive : ',' ∉ plugDrive nr gen :=
  List.not_mem_append (comma_notMem_disk nr) (by simp [comma_notMem_ofInt])

theorem comma_notMem_plugDev : ',' ∉ plugDev nr gen :=
  List.not_mem_append (comma_notMem_dev nr) (by simp [comma_notMem_ofInt])

end Ids

theorem plugArgs_eq {vm : Vm} {i nr : ℕ} (hnr : vm.ktestScratchDevBase + i = nr) {drive spec : Text}
    (hdrive : (vm.ktestQemuDrives.splitOn '\n')[nr]? = some drive) (hdriveNe : drive ≠ [])
    (hspec : (vm.ktestQemuDevices.splitOn '\n')[nr]? = some spec) (hspecNe : spec ≠ []) (gen : ℕ) :
    plugArgs vm i gen = some
      (Text.replaceFirst ("id=disk".toList ++ (Text.ofInt nr ++ [',']))
        ("id=disk".toList ++ Text.ofInt nr ++ 'p' :: Text.ofInt gen ++ [',']) drive,
      Text.replaceFirst ("id=dev".toList ++ Text.ofInt nr)
        ("id=dev".toList ++ Text.ofInt nr ++ 'p' :: Text.ofInt gen)
        (Text.replaceFirst ("drive=disk".toList ++ (Text.ofInt nr ++ [',']))
          ("drive=disk".toList ++ Text.ofInt nr ++ 'p' :: Text.ofInt gen ++ [',']) spec)) := by
  subst hnr
  unfold plugArgs
  dsimp only
  rw [hdrive, hspec]
  exact if_neg (by simp [hdriveNe, hspecNe])

theorem deviceWith_ne_nil (fs ms : List Text) (drive dev : Text) : deviceWith fs ms drive dev ≠ [] :=
  List.append_ne_nil_of_right_ne_nil _ (List.cons_ne_nil 'd' _)

theorem plugArgs_startVm (bus : StorageBus) {c : Config} (hlines : c.OneLine) {i nr : ℕ}
    (hi : i < c.scratchDevs) (hnr : (startVm bus c).ktestScratchDevBase + i = nr) (gen : ℕ) :
    ∃ drive spec, plugArgs (startVm bus c) i gen = some (drive, spec) ∧
      Reattaches bus (startVm bus c) nr drive spec (plugDrive nr gen) (plugDev nr gen) := by
  obtain ⟨hbase, options, hdisk⟩ := startVm_scratch bus c hi
  rw [hnr] at hdisk
  have hattaches := attaches_startVm bus c
  have hdrive := hattaches.drives_iff.mpr (fun _ _ => startVm_oneLine bus hlines) _ _ hdisk
  have hdevice := hattaches.devices hdisk
  have hdriveMem : Arg.drive (driveSpec nr options) ∈ (startVm bus c).cmd :=
    hattaches.mem_cmd hdisk (by simp [diskArgs])
  have hdeviceMem := hattaches.mem_cmd hdisk (deviceOf_mem_diskArgs bus nr (.disk options))
  have hne : nr ≠ 0 := by omega
  obtain ⟨fs, ms, hfs, hms, hspec⟩ := diskDevice_shape bus hne
  have hcomma := comma_notMem_plugDrive nr gen
  have hcomma' := comma_notMem_plugDev nr gen
  refine ⟨driveWith (plugDrive nr gen) options, deviceWith fs ms (plugDrive nr gen) (plugDev nr gen), ?_, ?_⟩
  · rw [deviceLine, deviceOf, hspec] at hdevice
    rw [plugArgs_eq hnr hdrive (driveSpec_ne_nil nr options) hdevice (deviceWith_ne_nil fs ms _ _),
      driveLine, replaceFirst_driveSpec, replaceFirst_drive hfs, replaceFirst_dev hfs hms]
  · refine ⟨⟨options, hdriveMem, ?_⟩, ⟨hdeviceMem, ?_⟩, fieldOf_driveWith hcomma options,
      fieldOf_id_deviceWith hfs hms hcomma hcomma', fieldOf_drive_deviceWith hfs hms hcomma hcomma'⟩
    · rw [driveSpec_eq, otherFields_driveWith hcomma, otherFields_driveWith (comma_notMem_disk nr)]
    · rw [hspec, otherFields_deviceWith hfs hms hcomma hcomma',
        otherFields_deviceWith hfs hms (comma_notMem_disk nr) (comma_notMem_dev nr)]

theorem p_notMem_ofInt (i : ℤ) : 'p' ∉ Text.ofInt i := Text.notMem_ofInt (by decide) (by decide) i

/-- The number of a disk ends at the `p`. -/
theorem generation_inj {stem : Text} (hstem : 'p' ∉ stem) {nr gen nr' gen' : ℕ}
    (h : stem ++ Text.ofInt nr ++ 'p' :: Text.ofInt gen = stem ++ Text.ofInt nr' ++ 'p' :: Text.ofInt gen') :
    nr = nr' ∧ gen = gen' := by
  obtain ⟨hnr, hgen⟩ := Text.append_cons_inj (List.not_mem_append hstem (p_notMem_ofInt nr))
    (List.not_mem_append hstem (p_notMem_ofInt nr')) h
  exact ⟨Text.ofInt_natCast_inj (List.append_cancel_left hnr), Text.ofInt_natCast_inj hgen⟩

theorem plugDrive_injective {nr gen nr' gen' : ℕ} (h : plugDrive nr gen = plugDrive nr' gen') :
    nr = nr' ∧ gen = gen' :=
  generation_inj (by decide) h

theorem plugDev_injective {nr gen nr' gen' : ℕ} (h : plugDev nr gen = plugDev nr' gen') :
    nr = nr' ∧ gen = gen' :=
  generation_inj (by decide) h

theorem plugDev_ne_text (nr gen : ℕ) (id : DeviceId) : plugDev nr gen ≠ id.text := by
  have hmem : 'p' ∈ plugDev nr gen := List.mem_append_right _ List.mem_cons_self
  intro h
  cases id with
  | dev disknr => exact List.not_mem_append (by decide) (p_notMem_ofInt disknr) (h ▸ hmem)
  | _ => cases h

theorem plugDev_notMem_declares (nr gen : ℕ) (args : List Arg) :
    plugDev nr gen ∉ args.filterMap Arg.declares := by
  intro h
  obtain ⟨a, -, ha⟩ := List.mem_filterMap.mp h
  rw [Arg.declares, Option.map_eq_some_iff] at ha
  obtain ⟨id, -, hid⟩ := ha
  exact plugDev_ne_text nr gen id hid.symm

theorem p_notMem_driveId (bus : StorageBus) (c : Config) :
    ∀ id ∈ (startVm bus c).cmd.filterMap Arg.driveId, 'p' ∉ id := by
  have hbase : (baseArgs bus c).filterMap Arg.driveId = [] := by
    unfold baseArgs
    split_ifs <;> cases bus <;> rfl
  rw [(attaches_startVm bus c).cmd_eq, List.filterMap_append, hbase, List.nil_append]
  refine forall_mem_filterMap_argsOf ?_ _
  intro n d id hid
  cases d with
  | pmem options => simp [diskArgs, Arg.driveId] at hid
  | disk options =>
    have hbridge : (bridgeArgs bus n).filterMap Arg.driveId = [] := by
      unfold bridgeArgs
      split_ifs <;> rfl
    rw [diskArgs, List.filterMap_append, hbridge, List.nil_append] at hid
    simp only [List.filterMap_cons, Arg.driveId, driveSpec_eq,
      fieldOf_driveWith (comma_notMem_disk n), List.filterMap_nil, List.mem_singleton] at hid
    rw [hid]
    exact List.not_mem_append (by decide) (p_notMem_ofInt n)

theorem plugDrive_notMem_driveId (bus : StorageBus) (c : Config) (nr gen : ℕ) :
    plugDrive nr gen ∉ (startVm bus c).cmd.filterMap Arg.driveId := by
  intro h
  exact p_notMem_driveId bus c _ h (List.mem_append_right _ List.mem_cons_self)

def plugs (calls : List HotplugCall) (i : ℕ) : ℕ := calls.countP (fun r => r.plug && r.index == i)

/-- A call finds the state file of a device that has been put back before. -/
def findsFile (s : Hotplug) : HotplugEvent → Bool
  | .unplug i | .plug i => (s.files i).isSome || plugs s.calls i == 0
  | .subtest | .restart => true

def currentId (vm : Vm) (i k : ℕ) : Text :=
  if k = 0 then "dev".toList ++ Text.ofInt ((vm.ktestScratchDevBase + i : ℕ))
  else plugDev (vm.ktestScratchDevBase + i) k

theorem plugs_cons_unplug {r : HotplugCall} (hr : r.plug = false) (calls : List HotplugCall) (j : ℕ) :
    plugs (r :: calls) j = plugs calls j := by
  simp [plugs, hr]

theorem plugs_cons_plug {r : HotplugCall} (hr : r.plug = true) (calls : List HotplugCall) (j : ℕ) :
    plugs (r :: calls) j = plugs calls j + if r.index = j then 1 else 0 := by
  simp [plugs, hr, List.countP_cons]

/-- Each generation of a device has been seen, and no other one. -/
structure Hotplug.Sound (bus : StorageBus) (c : Config) (s : Hotplug) : Prop where
  attached : ∀ i id, i < c.scratchDevs → s.attached i = some id →
    id = currentId (startVm bus c) i (plugs s.calls i)
  files : ∀ i st, s.files i = some st →
    st.id = currentId (startVm bus c) i (plugs s.calls i) ∧ st.gen = plugs s.calls i
  drives : ∀ i gen, plugDrive ((startVm bus c).ktestScratchDevBase + i) gen ∈ s.drives ↔
    0 < gen ∧ gen ≤ plugs s.calls i
  devices : ∀ i gen, plugDev ((startVm bus c).ktestScratchDevBase + i) gen ∈ s.devices ↔
    0 < gen ∧ gen ≤ plugs s.calls i

section Runs

variable {bus : StorageBus} {c : Config} {s s' : Hotplug}

theorem sound_hotplugStart (bus : StorageBus) (c : Config) :
    (hotplugStart bus (startVm bus c)).Sound bus c where
  attached i id hi h := by
    obtain ⟨hbase, options, hdisk⟩ := startVm_scratch bus c hi
    generalize hnr : (startVm bus c).ktestScratchDevBase + i = nr at hdisk
    have hne : nr ≠ 0 := by omega
    obtain ⟨fs, ms, hfs, hms, hspec⟩ := diskDevice_shape bus hne
    simp only [hotplugStart, hnr, hdisk, Option.bind_some, deviceLine, deviceOf, hspec,
      fieldOf_id_deviceWith hfs hms (comma_notMem_disk nr) (comma_notMem_dev nr)] at h
    rw [← Option.some.inj h, currentId, hnr]
    rfl
  files i st h := by cases h
  drives i gen := by
    refine iff_of_false (plugDrive_notMem_driveId bus c _ gen) ?_
    rintro ⟨hpos, hle⟩
    exact absurd hle (by simpa [hotplugStart, plugs] using hpos.ne')
  devices i gen := by
    refine iff_of_false (plugDev_notMem_declares _ gen _) ?_
    rintro ⟨hpos, hle⟩
    exact absurd hle (by simpa [hotplugStart, plugs] using hpos.ne')

theorem Hotplug.Sound.state (h : s.Sound bus c) {i : ℕ}
    (hfile : ((s.files i).isSome || plugs s.calls i == 0) = true) :
    (scratchDevState (startVm bus c) s.files i).id = currentId (startVm bus c) i (plugs s.calls i) ∧
      (scratchDevState (startVm bus c) s.files i).gen = plugs s.calls i := by
  unfold scratchDevState
  cases hst : s.files i with
  | some st => exact h.files i st hst
  | none =>
    have hzero : plugs s.calls i = 0 := by simpa [hst] using hfile
    rw [hzero]
    exact ⟨rfl, rfl⟩

theorem scratchDevState_of_not_found (vm : Vm) {i : ℕ}
    (hfile : ¬ ((s.files i).isSome || plugs s.calls i == 0) = true) :
    scratchDevState vm s.files i = ⟨true, currentId vm i 0, 0⟩ ∧ plugs s.calls i ≠ 0 := by
  rw [Bool.or_eq_true, not_or, Option.not_isSome_iff_eq_none, beq_iff_eq] at hfile
  refine ⟨?_, hfile.2⟩
  rw [scratchDevState, hfile.1]
  rfl

theorem currentId_zero_ne (vm : Vm) (i : ℕ) {k : ℕ} (hk : k ≠ 0) : currentId vm i k ≠ currentId vm i 0 := by
  rw [currentId, if_neg hk]
  exact plugDev_ne_text _ k (.dev (vm.ktestScratchDevBase + i))

theorem hotplugStep_unplug {vm : Vm} {count i : ℕ} (h : hotplugStep vm count s (.unplug i) = some s') :
    i < count ∧ ∃ id, s.attached i = some id ∧ s' = { s with
      files := Function.update s.files i
        (some ⟨false, (scratchDevState vm s.files i).id, (scratchDevState vm s.files i).gen⟩)
      attached := Function.update s.attached i none
      calls := s.call i false [.deviceDel (scratchDevState vm s.files i).id] :: s.calls } := by
  obtain ⟨⟨hi, hsome⟩, hs'⟩ := guard_eq_some h
  obtain ⟨id, hid⟩ := Option.isSome_iff_exists.mp hsome
  exact ⟨hi, id, hid, hs'.symm⟩

/-- A device of the machine is put back with its own arguments and a new generation. -/
theorem hotplugStep_plug (hlines : c.OneLine) {i nr gen : ℕ}
    (hnr : (startVm bus c).ktestScratchDevBase + i = nr)
    (hgen : (scratchDevState (startVm bus c) s.files i).gen + 1 = gen)
    (h : hotplugStep (startVm bus c) c.scratchDevs s (.plug i) = some s') :
    ∃ drive spec, Reattaches bus (startVm bus c) nr drive spec (plugDrive nr gen) (plugDev nr gen) ∧
      s' = { s with
        files := Function.update s.files i (some ⟨true, plugDev nr gen, gen⟩)
        attached := Function.update s.attached i (some (plugDev nr gen))
        drives := plugDrive nr gen :: s.drives
        devices := plugDev nr gen :: s.devices
        calls := s.call i true [.driveAdd drive, .deviceAdd spec] :: s.calls } := by
  obtain ⟨⟨hi, -⟩, hs'⟩ : (i < c.scratchDevs ∧ (s.attached i).isNone) ∧ _ := by
    rw [hotplugStep] at h
    split_ifs at h with hguard
    exact ⟨hguard, h⟩
  obtain ⟨drive, spec, hargs, hre⟩ := plugArgs_startVm bus hlines hi hnr gen
  refine ⟨drive, spec, hre, ?_⟩
  simp only [hgen, hargs, hre.driveId_eq, hre.devId_eq, hnr] at hs'
  exact (Option.some.inj hs').symm

theorem Hotplug.Sound.unplug (h : s.Sound bus c) {i : ℕ}
    (hfile : ((s.files i).isSome || plugs s.calls i == 0) = true)
    (hstep : hotplugStep (startVm bus c) c.scratchDevs s (.unplug i) = some s') : s'.Sound bus c := by
  obtain ⟨-, id, -, rfl⟩ := hotplugStep_unplug hstep
  have hplugs : ∀ j, plugs (s.call i false
      [.deviceDel (scratchDevState (startVm bus c) s.files i).id] :: s.calls) j = plugs s.calls j :=
    plugs_cons_unplug rfl s.calls
  refine ⟨?_, ?_, ?_, ?_⟩
  · intro j id' hj hid'
    rw [hplugs]
    rcases update_eq_some hid' with ⟨-, hnone⟩ | ⟨-, hid'⟩
    · cases hnone
    · exact h.attached j id' hj hid'
  · intro j st hst
    rw [hplugs]
    rcases update_eq_some hst with ⟨rfl, hst⟩ | ⟨-, hst⟩
    · rw [← Option.some.inj hst]
      exact h.state hfile
    · exact h.files j st hst
  · intro j gen
    rw [hplugs]
    exact h.drives j gen
  · intro j gen
    rw [hplugs]
    exact h.devices j gen

theorem mem_cons_generation {id : ℕ → ℕ → Text}
    (hinj : ∀ nr gen nr' gen', id nr gen = id nr' gen' → nr = nr' ∧ gen = gen') {ids : List Text}
    {base : ℕ} {seen : ℕ → ℕ} (h : ∀ j gen, id (base + j) gen ∈ ids ↔ 0 < gen ∧ gen ≤ seen j) (i j gen : ℕ) :
    id (base + j) gen ∈ id (base + i) (seen i + 1) :: ids ↔
      0 < gen ∧ gen ≤ seen j + if i = j then 1 else 0 := by
  rw [List.mem_cons, h]
  by_cases hij : i = j
  · subst hij
    rw [if_pos rfl]
    constructor
    · rintro (heq | ⟨hpos, hle⟩)
      · have hgen := (hinj _ _ _ _ heq).2
        omega
      · omega
    · rintro ⟨hpos, hle⟩
      rcases Nat.lt_or_eq_of_le hle with hlt | rfl
      · exact .inr ⟨hpos, by omega⟩
      · exact .inl rfl
  · have hne : id (base + j) gen ≠ id (base + i) (seen i + 1) := by
      intro heq
      have hnr := (hinj _ _ _ _ heq).1
      omega
    rw [if_neg hij, or_iff_right hne]
    rfl

theorem Hotplug.Sound.plug (hlines : c.OneLine) (h : s.Sound bus c) {i : ℕ}
    (hfile : ((s.files i).isSome || plugs s.calls i == 0) = true)
    (hstep : hotplugStep (startVm bus c) c.scratchDevs s (.plug i) = some s') : s'.Sound bus c := by
  have hgen := (h.state hfile).2
  obtain ⟨drive, spec, -, rfl⟩ := hotplugStep_plug hlines rfl (congrArg (fun gen => gen + 1) hgen) hstep
  have hplugs : ∀ j, plugs (s.call i true [.driveAdd drive, .deviceAdd spec] :: s.calls) j =
      plugs s.calls j + if i = j then 1 else 0 := plugs_cons_plug rfl s.calls
  have hself : currentId (startVm bus c) i (plugs s.calls i + 1) =
      plugDev ((startVm bus c).ktestScratchDevBase + i) (plugs s.calls i + 1) := by
    rw [currentId, if_neg (by omega)]
  refine ⟨?_, ?_, ?_, ?_⟩
  · intro j id hj hid
    rw [hplugs]
    rcases update_eq_some hid with ⟨rfl, hid⟩ | ⟨hji, hid⟩
    · rw [if_pos rfl, hself, Option.some.inj hid]
    · rw [if_neg (Ne.symm hji)]
      exact h.attached j id hj hid
  · intro j st hst
    rw [hplugs]
    rcases update_eq_some hst with ⟨rfl, hst⟩ | ⟨hji, hst⟩
    · rw [if_pos rfl, hself, ← Option.some.inj hst]
      exact ⟨rfl, rfl⟩
    · rw [if_neg (Ne.symm hji)]
      exact h.files j st hst
  · intro j gen
    rw [hplugs]
    exact mem_cons_generation (fun _ _ _ _ => plugDrive_injective) h.drives i j gen
  · intro j gen
    rw [hplugs]
    exact mem_cons_generation (fun _ _ _ _ => plugDev_injective) h.devices i j gen

theorem Hotplug.Sound.step (hlines : c.OneLine) (h : s.Sound bus c) {e : HotplugEvent}
    (hfile : findsFile s e = true)
    (hstep : hotplugStep (startVm bus c) c.scratchDevs s e = some s') : s'.Sound bus c := by
  cases e with
  | unplug i => exact h.unplug hfile hstep
  | plug i => exact h.plug hlines hfile hstep
  | subtest => exact Option.some.inj hstep ▸ h
  | restart =>
    obtain rfl := Option.some.inj hstep
    exact ⟨h.attached, fun i st hst => (Option.some_ne_none st hst.symm).elim, h.drives, h.devices⟩

/-- Every call that is right finds the file, and the other way round. -/
theorem right_step_iff (hlines : c.OneLine) (h : s.Sound bus c) {e : HotplugEvent}
    (hstep : hotplugStep (startVm bus c) c.scratchDevs s e = some s') :
    (∀ r ∈ s'.calls, r.Right bus (startVm bus c)) ↔
      findsFile s e = true ∧ ∀ r ∈ s.calls, r.Right bus (startVm bus c) := by
  cases e with
  | unplug i =>
    obtain ⟨hi, id, hid, rfl⟩ := hotplugStep_unplug hstep
    have hcurrent := h.attached i id hi hid
    rw [List.forall_mem_cons, findsFile]
    refine and_congr_left' ?_
    by_cases hfile : ((s.files i).isSome || plugs s.calls i == 0) = true
    · refine iff_of_true ⟨id, hid, ?_⟩ hfile
      rw [hcurrent, ← (h.state hfile).1]
      rfl
    · -- the id of `start_vm` is deleted, and the device has a later one
      refine iff_of_false ?_ hfile
      obtain ⟨hstate, hne⟩ := scratchDevState_of_not_found (startVm bus c) hfile
      rintro ⟨id', hid', hdel⟩
      obtain rfl : id = id' := Option.some.inj (hid.symm.trans hid')
      rw [Hotplug.call, hstate, List.cons.injEq, MonitorCommand.deviceDel.injEq] at hdel
      exact currentId_zero_ne (startVm bus c) i hne (hcurrent.symm.trans hdel.1.symm)
  | plug i =>
    obtain ⟨drive, spec, hre, rfl⟩ := hotplugStep_plug hlines rfl rfl hstep
    rw [List.forall_mem_cons, findsFile]
    refine and_congr_left' ?_
    by_cases hfile : ((s.files i).isSome || plugs s.calls i == 0) = true
    · refine iff_of_true ⟨drive, spec, _, _, rfl, hre, ?_, ?_⟩ hfile
      · rw [(h.state hfile).2]
        exact fun hmem => absurd ((h.drives i _).mp hmem).2 (by omega)
      · rw [(h.state hfile).2]
        exact fun hmem => absurd ((h.devices i _).mp hmem).2 (by omega)
    · -- the first generation is handed out once more
      refine iff_of_false ?_ hfile
      obtain ⟨hstate, hne⟩ := scratchDevState_of_not_found (startVm bus c) hfile
      rintro ⟨drive', spec', driveId, devId, hcommands, hre', hnew, -⟩
      obtain ⟨rfl, rfl⟩ : drive = drive' ∧ spec = spec' := by simpa [Hotplug.call] using hcommands
      obtain rfl := Option.some.inj (hre.driveId_eq.symm.trans hre'.driveId_eq)
      rw [hstate] at hnew
      exact hnew ((h.drives i 1).mpr ⟨by omega, by omega⟩)
  | subtest =>
    obtain rfl := Option.some.inj hstep
    simp [findsFile]
  | restart =>
    obtain rfl := Option.some.inj hstep
    simp [findsFile]

theorem calls_subset_of_step {e : HotplugEvent} {vm : Vm} {count : ℕ} (h : hotplugStep vm count s e = some s') :
    s.calls ⊆ s'.calls := by
  cases e with
  | unplug i =>
    obtain ⟨-, id, -, rfl⟩ := hotplugStep_unplug h
    exact List.subset_cons_self _ _
  | plug i =>
    rw [hotplugStep] at h
    split_ifs at h
    dsimp only at h
    split at h
    all_goals
      obtain rfl := Option.some.inj h
      exact List.subset_cons_self _ _
  | subtest => exact Option.some.inj h ▸ List.Subset.refl _
  | restart =>
    obtain rfl := Option.some.inj h
    exact List.Subset.refl _

/-- The calls of a run are right exactly if those before it are, and each of it finds the file. -/
theorem right_run_iff (hlines : c.OneLine) (h : s.Sound bus c) {es : List HotplugEvent} {t : Hotplug}
    (hrun : run (hotplugStep (startVm bus c) c.scratchDevs) s es = some t) :
    (∀ r ∈ t.calls, r.Right bus (startVm bus c)) ↔
      along findsFile (hotplugStep (startVm bus c) c.scratchDevs) s es = true ∧
        ∀ r ∈ s.calls, r.Right bus (startVm bus c) := by
  induction es generalizing s with
  | nil =>
    obtain rfl := Option.some.inj hrun
    simp [along]
  | cons e es ih =>
    obtain ⟨s', hstep, hrest⟩ := run_cons_eq_some_iff.mp hrun
    have hright := right_step_iff hlines h hstep
    rw [along_cons hstep, Bool.and_eq_true]
    by_cases hfile : findsFile s e = true
    · rw [ih (h.step hlines hfile hstep) hrest, hright]
      tauto
    · -- the wrong call stays, whatever follows
      refine iff_of_false ?_ (fun hall => hfile hall.1.1)
      intro hall
      have hkeep : ∀ u e u', s'.calls ⊆ u.calls →
          hotplugStep (startVm bus c) c.scratchDevs u e = some u' → s'.calls ⊆ u'.calls :=
        fun u e u' hsub hu => List.Subset.trans hsub (calls_subset_of_step hu)
      have hsubset := run_invariant_all hkeep (List.Subset.refl _) hrest
      exact hfile (hright.mp (fun r hr => hall r (hsubset hr))).1

end Runs

/-- Whatever is taken away and put back, each call deletes the device that is there or restores
the one of `start_vm` under new ids, exactly if it finds the state file that an earlier one has
left. -/
theorem hotplug_right_iff (bus : StorageBus) {c : Config} (hlines : c.OneLine) {es : List HotplugEvent}
    {s : Hotplug} (hrun : run (hotplugStep (startVm bus c) c.scratchDevs) (hotplugStart bus (startVm bus c)) es =
      some s) :
    (∀ r ∈ s.calls, r.Right bus (startVm bus c)) ↔
      along findsFile (hotplugStep (startVm bus c) c.scratchDevs) (hotplugStart bus (startVm bus c)) es = true := by
  rw [right_run_iff hlines (sound_hotplugStart bus c) hrun]
  simp [hotplugStart]

def hotplugConfig : Config where
  ktestRootImage := "/srv/root.amd64".toList
  ktestImages := []
  ktestRwImages := []
  ktestScratchDevSizes := ["4G".toList]
  ktestScratchSlowdevs := []
  ktestPmemDevs := []
  ktestDio := "off".toList
  ktestOut := "/tmp/ktest-out".toList
  nixStore := false

theorem oneLine_hotplugConfig : hotplugConfig.OneLine := by
  rw [Config.oneLine_iff]
  decide

/-- In one run of the tests, over two subtests. -/
theorem hotplug_right_subtests : ∃ s,
    run (hotplugStep (startVm .virtioBlk hotplugConfig) hotplugConfig.scratchDevs)
      (hotplugStart .virtioBlk (startVm .virtioBlk hotplugConfig))
      [.unplug 0, .plug 0, .subtest, .unplug 0, .plug 0] = some s ∧
    s.calls.length = 4 ∧ ∀ r ∈ s.calls, r.Right .virtioBlk (startVm .virtioBlk hotplugConfig) := by
  have hlength : ((run (hotplugStep (startVm .virtioBlk hotplugConfig) hotplugConfig.scratchDevs)
      (hotplugStart .virtioBlk (startVm .virtioBlk hotplugConfig))
      [.unplug 0, .plug 0, .subtest, .unplug 0, .plug 0]).map (fun s => s.calls.length)) = some 4 := by
    decide
  obtain ⟨s, hs, hfour⟩ := Option.map_eq_some_iff.mp hlength
  exact ⟨s, hs, hfour, (hotplug_right_iff .virtioBlk oneLine_hotplugConfig hs).mpr (by decide)⟩

def lastCall (bus : StorageBus) (c : Config) (es : List HotplugEvent) : Option HotplugCall :=
  (run (hotplugStep (startVm bus c) c.scratchDevs) (hotplugStart bus (startVm bus c)) es).bind
    (fun s => s.calls.head?)

theorem not_right_of_lastCall {bus : StorageBus} {c : Config} {es : List HotplugEvent} {r : HotplugCall}
    (h : lastCall bus c es = some r) (hr : ¬ r.Right bus (startVm bus c)) :
    ∃ s, run (hotplugStep (startVm bus c) c.scratchDevs) (hotplugStart bus (startVm bus c)) es = some s ∧
      ¬ ∀ r ∈ s.calls, r.Right bus (startVm bus c) := by
  obtain ⟨s, hs, hhead⟩ := Option.bind_eq_some_iff.mp h
  exact ⟨s, hs, fun hall => hr (hall r (List.mem_of_head? hhead))⟩

/-- When the tests are run again in the machine, a device that is gone is put back under ids that
the machine has seen, and for a device that is there the id is deleted that `start_vm` gave it. -/
theorem ids_lost_after_restart :
    (∃ s, run (hotplugStep (startVm .virtioBlk hotplugConfig) hotplugConfig.scratchDevs)
      (hotplugStart .virtioBlk (startVm .virtioBlk hotplugConfig))
      [.unplug 0, .plug 0, .unplug 0, .restart, .plug 0] = some s ∧
      ¬ ∀ r ∈ s.calls, r.Right .virtioBlk (startVm .virtioBlk hotplugConfig)) ∧
    ∃ s, run (hotplugStep (startVm .virtioBlk hotplugConfig) hotplugConfig.scratchDevs)
      (hotplugStart .virtioBlk (startVm .virtioBlk hotplugConfig))
      [.unplug 0, .plug 0, .restart, .unplug 0] = some s ∧
      ¬ ∀ r ∈ s.calls, r.Right .virtioBlk (startVm .virtioBlk hotplugConfig) := by
  constructor
  · have hlast : lastCall .virtioBlk hotplugConfig [.unplug 0, .plug 0, .unplug 0, .restart, .plug 0] =
        some ⟨0, true, none, ["disk1p1".toList, "disk0".toList, "disk1".toList],
          ["dev1p1".toList, "pci.1".toList, "pci.2".toList, "dev0".toList, "rp.blk0".toList, "pci.blk0".toList,
            "dev1".toList],
          [.driveAdd "if=none,format=raw,id=disk1p1,file=/tmp/ktest-out/vm/dev-1,cache=unsafe".toList,
            .deviceAdd "virtio-blk-pci,drive=disk1p1,bus=pci.blk0,addr=0x1,id=dev1p1".toList]⟩ := by decide +kernel
    refine not_right_of_lastCall hlast ?_
    rintro ⟨drive, spec, driveId, devId, hcommands, hre, hnew, -⟩
    rw [List.cons.injEq, MonitorCommand.driveAdd.injEq] at hcommands
    have hid : fieldOf "id=".toList drive = some "disk1p1".toList := by
      rw [← hcommands.1]
      decide
    obtain rfl := Option.some.inj (hid.symm.trans hre.driveId_eq)
    exact hnew (by decide)
  · have hlast : lastCall .virtioBlk hotplugConfig [.unplug 0, .plug 0, .restart, .unplug 0] =
        some ⟨0, false, some "dev1p1".toList, ["disk1p1".toList, "disk0".toList, "disk1".toList],
          ["dev1p1".toList, "pci.1".toList, "pci.2".toList, "dev0".toList, "rp.blk0".toList, "pci.blk0".toList,
            "dev1".toList], [.deviceDel "dev1".toList]⟩ := by decide +kernel
    refine not_right_of_lastCall hlast ?_
    rintro ⟨id, hid, hcommands⟩
    rw [← Option.some.inj hid, List.cons.injEq, MonitorCommand.deviceDel.injEq] at hcommands
    exact absurd hcommands.1 (by decide)

end Qemu
end KtestCi
