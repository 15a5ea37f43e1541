import Mathlib.Data.List.FinRange
import ShirleysOS.Exfat.CachedMount
import ShirleysOS.Ext4.Volume

/-!
# Mounting devices

Two slots mount volumes from block devices, each with a block cache of its own. Nothing looks
whether a device is mounted already: mounted twice, it is read and written through two caches that
do not know of each other. What keeps the volume whole is VolumeDirty, which the second mount finds
on the device.

The VFS appears through its answers: the device that a path names, and whether it takes the volume
or lets go of it. Source: `kernel/fs/device_mount.cpp`.
-/

namespace ShirleysOS.Fs

open Lib Storage

/-- `max_device_mounts`. -/
abbrev maxDeviceMounts : ℕ := 2

/-- `cache_blocks`. -/
def cacheBlocks : ℕ := 64

/-! ## Formats -/

/-- `ext4::identify`: the magic number of the superblock. -/
def ext4Identify (device : Medium Error) : Io Error Bool :=
  let block := device.blockSize
  let position := Ext4.superblockOffset + 56
  if block < 512 ∨ 4096 < block ∨ block &&& (block - 1) ≠ 0 then .pure false
  else if device.blockCount ≤ position / block then .pure false
  else
    .read (position / block) 1 fun
      | .error _ => .pure false
      | .ok sector => .pure (Exfat.le16 sector (position % block) == Ext4.magic)

/-- `exfat::identify`: the signature of the boot sector. -/
def exfatIdentify (device : Medium Error) : Io Error Bool :=
  if device.blockSize < 512 ∨ Exfat.maxBlockBytes < device.blockSize then .pure false
  else
    .read 0 1 fun
      | .error _ => .pure false
      | .ok sector => .pure (Exfat.bootSigned sector)

/-! ## Slots -/

/-- Why a call fails. -/
inductive Failure
  | noSuchDevice
  | notBlockDevice
  | invalidMountPoint
  | alreadyMountedThere
  | tooManyDevices
  | outOfMemory
  | exfat (error : Exfat.MountError)
  | ext4 (error : Ext4.MountError)
  | noFileSystem
  | unusableMountPoint
  | invalidPath
  | busy
  | writeBackFailed
  | notMounted
deriving DecidableEq, Repr

/-- What the caller is told. -/
def Failure.text : Failure → String
  | noSuchDevice => "no such device"
  | notBlockDevice => "not a block device"
  | invalidMountPoint => "invalid mount point"
  | alreadyMountedThere => "already mounted there"
  | tooManyDevices => "too many mounted devices"
  | outOfMemory => "out of memory"
  | exfat .notExfat => "not an exFAT volume"
  | exfat .unsupported => "unsupported exFAT variant"
  | exfat .corrupt => "corrupt exFAT volume"
  | exfat .deviceError => "device error"
  | exfat .outOfMemory => "out of memory"
  | ext4 .notExt4 => "not an ext2/3/4 volume"
  | ext4 .unsupported => "unsupported ext4 feature"
  | ext4 .needsRecovery => "the journal needs recovery (run e2fsck)"
  | ext4 .corrupt => "corrupt ext4 volume"
  | ext4 .deviceError => "device error"
  | ext4 .outOfMemory => "out of memory"
  | noFileSystem => "no supported file system (exFAT, ext2/3/4)"
  | unusableMountPoint => "the mount point is not usable"
  | invalidPath => "invalid path"
  | busy => "busy"
  | writeBackFailed => "unmounted, but writing back to the device failed"
  | notMounted => "not a mounted device"

/-- `Slot::active`, with the state of the volume. -/
inductive Active
  | none
  | exfat (g : Exfat.Volume) (s : Exfat.State)
  | ext4 (v : Ext4.Volume)

/-- The volume can be written. -/
def Active.writable : Active → Bool
  | exfat g _ => g.writable
  | _ => false

/-- `Slot`: `blocks` is the device that the cache is bound to. -/
structure Slot (ι : Type) where
  blocks : Option ι
  cache : Cache
  active : Active
  path : List UInt8
  used : Bool

/-- The devices, and the slots that mount them. -/
structure System (ι : Type) where
  devices : ι → Device
  slots : Fin maxDeviceMounts → Slot ι

variable {ι : Type} [DecidableEq ι]

/-- What a driver sees of a cache. -/
def medium (c : Cache) : Medium Error := ⟨c.blockBytes, c.blockCount, .outOfRange⟩

/-- A slot whose cache goes to the device as it is now. -/
def System.slot (sys : System ι) (i : Fin maxDeviceMounts) : Slot ι :=
  { sys.slots i with
    cache :=
      { (sys.slots i).cache with
        device := (sys.slots i).blocks.elim (sys.slots i).cache.device sys.devices } }

/-- The system after something happened in a slot, and through it on its device. -/
def System.store (sys : System ι) (i : Fin maxDeviceMounts) (slot : Slot ι) : System ι where
  devices :=
    match slot.blocks with
    | none => sys.devices
    | some d => Function.update sys.devices d slot.cache.device
  slots := Function.update sys.slots i slot

/-! ## Mounting -/

/-- A call of `mount_device`: the paths, and what the VFS and the heap answer. -/
structure Request (ι : Type) where
  /-- The node at the path of the device: its device if it is a block device. -/
  node : Option (Option ι)
  path : List UInt8
  base : Option (List UInt8)
  allocated : Bool
  storage : ℕ → Bytes
  bounceRoom : Bool
  upcaseRoom : Bool
  blockRoom : Bool
  /-- `vfs::mount` takes the volume. -/
  accepted : Bool

/-- `mount_volume`: why it failed, or the volume. -/
def mountVolume (r : Request ι) (self : ℕ) (c : Cache) : Except Failure Active × Cache :=
  let identified := runCache (exfatIdentify (medium c)) c
  if identified.1 then
    let mounted := runCache
      (Exfat.mount self (medium c) true r.bounceRoom r.upcaseRoom Exfat.State.initial) identified.2
    match mounted.1.1 with
    | .error e => (.error (.exfat e), mounted.2)
    | .ok g => (.ok (.exfat g mounted.1.2), mounted.2)
  else
    let identified := runCache (ext4Identify (medium c)) identified.2
    if identified.1 then
      let mounted := runCache
        (Ext4.mount self (medium c).blockSize (medium c).blockCount r.bounceRoom r.blockRoom)
        identified.2
      match mounted.1 with
      | .error e => (.error (.ext4 e), mounted.2)
      | .ok v => (.ok (.ext4 v), mounted.2)
    else (.error .noFileSystem, identified.2)

/-- `unmount_volume`. -/
def unmountVolume (slot : Slot ι) : Slot ι :=
  match slot.active with
  | .exfat g s =>
    { slot with active := .none, cache := (runCache (Exfat.unmount g s) slot.cache).2 }
  | _ => { slot with active := .none }

/-- The loop of `mount_device`: the first slot that is not used, unless one is mounted there. -/
def pickSlot (sys : System ι) (target : List UInt8) :
    List (Fin maxDeviceMounts) → Option (Fin maxDeviceMounts) →
      Except Failure (Option (Fin maxDeviceMounts))
  | [], slot => .ok slot
  | i :: rest, slot =>
    if (sys.slots i).used = false then
      pickSlot sys target rest (if slot = none then some i else slot)
    else if (sys.slots i).path = target then .error .alreadyMountedThere
    else pickSlot sys target rest slot

/-- The end of `mount_device`, in a slot that is not used: `slot` is bound to the device. -/
def mountIn (r : Request ι) (i : Fin maxDeviceMounts) (target : List UInt8) (slot : Slot ι) :
    Option Failure × Slot ι :=
  let initialized := slot.cache.initializeCache cacheBlocks 0 r.allocated r.storage
  if initialized.1 = false then (some .outOfMemory, { slot with cache := initialized.2 })
  else
    match mountVolume r i initialized.2 with
    | (.error failure, c) => (some failure, { slot with cache := c.shutdown.2 })
    | (.ok active, c) =>
      let slot := { slot with active, cache := c }
      if r.accepted = false then
        let slot := unmountVolume slot
        (some .unusableMountPoint, { slot with cache := slot.cache.shutdown.2 })
      else (none, { slot with path := target, used := true })

/-- `mount_device`. -/
def mountDevice (sys : System ι) (r : Request ι) : Option Failure × System ι :=
  match r.node with
  | none => (some .noSuchDevice, sys)
  | some none => (some .notBlockDevice, sys)
  | some (some d) =>
    match Vfs.normalize r.path r.base Vfs.maxPathLength with
    | none => (some .invalidMountPoint, sys)
    | some target =>
      match pickSlot sys target (List.finRange maxDeviceMounts) none with
      | .error failure => (some failure, sys)
      | .ok none => (some .tooManyDevices, sys)
      | .ok (some i) =>
        let bound := { sys.slots i with
          blocks := some d
          cache := { (sys.slots i).cache with device := sys.devices d } }
        let answer := mountIn r i target bound
        (answer.1, sys.store i answer.2)

/-! ## Unmounting -/

/-- The end of `unmount_device`, when the VFS has let go of the volume. -/
def unmountIn (slot : Slot ι) : Option Failure × Slot ι :=
  let slot := unmountVolume slot
  let written := slot.cache.shutdown
  let cache := if written.1.ok then written.2 else Cache.construct written.2.device
  (if written.1.ok then none else some .writeBackFailed,
    { slot with cache, path := [], used := false })

/-- `unmount_device`; `released` says whether `vfs::unmount` lets go of the volume. -/
def unmountDevice (sys : System ι) (path : List UInt8) (base : Option (List UInt8))
    (released : Bool) : Option Failure × System ι :=
  match Vfs.normalize path base Vfs.maxPathLength with
  | none => (some .invalidPath, sys)
  | some target =>
    match (List.finRange maxDeviceMounts).find? fun i =>
        (sys.slots i).used && (sys.slots i).path == target with
    | none => (some .notMounted, sys)
    | some i =>
      if released = false then (some .busy, sys)
      else
        let answer := unmountIn (sys.slot i)
        (answer.1, sys.store i answer.2)

/-! ## Runs -/

/-- An operation on a mounted volume, one for each format; a scan by the ext4 driver is given a
number of rounds. -/
def operate (slot : Slot ι) (op : Exfat.Operation) (fuel : ℕ) (call : Ext4.Call) : Slot ι :=
  match slot.active with
  | .none => slot
  | .exfat g s =>
    let done := runCache (op.program g s) slot.cache
    { slot with active := .exfat g done.1.2, cache := done.2 }
  | .ext4 v =>
    let done := runCache (Ext4.call fuel call v) slot.cache
    { slot with active := .ext4 done.1.2, cache := done.2 }

/-- The calls. -/
inductive Call (ι : Type)
  | mount (request : Request ι)
  | unmount (path : List UInt8) (base : Option (List UInt8)) (released : Bool)
  | operate (i : Fin maxDeviceMounts) (op : Exfat.Operation) (fuel : ℕ) (call : Ext4.Call)

def step (sys : System ι) : Call ι → System ι
  | .mount request => (mountDevice sys request).2
  | .unmount path base released => (unmountDevice sys path base released).2
  | .operate i op fuel call =>
    if (sys.slots i).used then sys.store i (operate (sys.slot i) op fuel call) else sys

def run (sys : System ι) (calls : List (Call ι)) : System ι := calls.foldl step sys

/-- A `BlockView` that is not bound to a device. -/
def unboundDevice : Device := ⟨0, 0, fun _ => 0, fun _ => none, 0⟩

/-- The system before the first call. -/
def start (devices : ι → Device) : System ι where
  devices
  slots _ := ⟨none, Cache.construct unboundDevice, .none, [], false⟩

/-- A slot has an exFAT volume on a device mounted writable. -/
def System.Writes (sys : System ι) (i : Fin maxDeviceMounts) (d : ι) : Prop :=
  (sys.slots i).blocks = some d ∧ (sys.slots i).active.writable = true

end ShirleysOS.Fs
