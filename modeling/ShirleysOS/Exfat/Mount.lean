import ShirleysOS.Exfat.Changes

/-!
# Mounting an exFAT volume

`mount` checks the boot region, finds the root directory, the allocation bitmap and the up-case
table, and, for a writable mount, puts VolumeDirty on the device before anything else can be
written; `unmount` writes everything back and clears it. An object that is not mounted has no
`Volume`, and the label and serial number, which only diagnostics read, are left out. Source:
`Volume::mount`, `unmount`, `set_volume_flags` and `load_upcase` of `kernel/fs/exfat.cpp`.
-/

namespace ShirleysOS.Exfat

open Lib Storage

/-- `MountError`, for an object that is not mounted yet. -/
inductive MountError
  | notExfat
  | unsupported
  | corrupt
  | deviceError
  | outOfMemory
deriving DecidableEq, Repr

/-! ## The boot region -/

/-- The signature `EXFAT` and three blanks. -/
def signature : List UInt8 := [0x45, 0x58, 0x46, 0x41, 0x54, 0x20, 0x20, 0x20]

/-- `signature_matches`, and the mark at the end of the sector. -/
def bootSigned (boot : Bytes) : Bool :=
  (List.range 8).all (fun i => boot (3 + i) == signature.getD i 0) &&
    boot 510 == 0x55 && boot 511 == 0xAA

/-- The fields of the boot sector. -/
structure Boot where
  volumeSectors : ℕ
  fatSector : ℕ
  fatSectors : ℕ
  heapSector : ℕ
  clusters : ℕ
  rootCluster : ℕ
  revisionMajor : ℕ
  flags : ℕ
  sectorShift : ℕ
  clusterSectorShift : ℕ
  fatCount : ℕ
deriving DecidableEq, Repr

def bootOf (boot : Bytes) : Boot where
  volumeSectors := le64 boot 72
  fatSector := le32 boot 80
  fatSectors := le32 boot 84
  heapSector := le32 boot 88
  clusters := le32 boot 92
  rootCluster := le32 boot 96
  revisionMajor := (boot 105).toNat
  flags := le16 boot 106
  sectorShift := (boot 108).toNat
  clusterSectorShift := (boot 109).toNat
  fatCount := (boot 110).toNat

/-- The checks on the fields of the boot sector, in the order in which they are made. -/
def Boot.check (b : Boot) (device : Medium Error) : Option MountError :=
  let sectorBytes := 2 ^ b.sectorShift
  if b.revisionMajor ≠ 1 then some .unsupported
  else if b.sectorShift < 9 ∨ 12 < b.sectorShift ∨ 25 - b.sectorShift < b.clusterSectorShift ∨
      (b.fatCount ≠ 1 ∧ b.fatCount ≠ 2) then some .corrupt
  else if b.clusters = 0 ∨ 0xFFFFFFF5 < b.clusters ∨ b.rootCluster < firstDataCluster ∨
      b.clusters + 1 < b.rootCluster ∨ b.fatSector < 24 ∨
      b.fatSectors * sectorBytes < (b.clusters + 2) * 4 ∨
      b.heapSector < b.fatSector + b.fatSectors * b.fatCount ∨
      b.volumeSectors < b.heapSector + b.clusters * 2 ^ b.clusterSectorShift then some .corrupt
  else if device.blockCount * device.blockSize % 2 ^ 64 / sectorBytes < b.volumeSectors then
    some .corrupt
  else none

/-- The volume that the fields describe; its bitmap and up-case table are still to be found. -/
def Boot.volume (b : Boot) (self : ℕ) (device : Medium Error) : Volume :=
  let sectorBytes := 2 ^ b.sectorShift
  { self
    device
    fatOffset :=
      b.fatSector * sectorBytes +
        (if b.fatCount = 2 ∧ b.flags &&& volumeFlagActiveFat ≠ 0 then b.fatSectors * sectorBytes
          else 0)
    heapOffset := b.heapSector * sectorBytes
    clusterCount := b.clusters
    clusterShift := b.sectorShift + b.clusterSectorShift
    bitmap := Stream.empty
    upcase := id
    volumeFlags := b.flags
    dirty := b.flags &&& volumeFlagDirty != 0
    writable := false }

variable (g : Volume)

/-- The part of the boot checksum in 512 bytes from `offset` on: the fields that change while
the volume is mounted are skipped. -/
def bootSum (offset : ℕ) (chunk : Bytes) (sum : UInt32) : UInt32 :=
  (List.range 512).foldl (fun sum i =>
    if offset + i = 106 ∨ offset + i = 107 ∨ offset + i = 112 then sum
    else checksum32 sum (chunk i)) sum

/-- The checksum of `n` more chunks. -/
def bootSumLoop : ℕ → ℕ → UInt32 → Driver (Option UInt32)
  | 0, _, sum => pure (some sum)
  | n + 1, offset, sum => do
    let (result, chunk) ← readBytes g offset 512
    if result.ok then bootSumLoop n (offset + 512) (bootSum offset chunk sum) else pure none

/-- The sector after the checked ones is filled with the checksum: `n` more chunks of it. -/
def bootSumCheck (sum : UInt32) : ℕ → ℕ → Driver (Option MountError)
  | 0, _ => pure none
  | n + 1, offset => do
    let (result, chunk) ← readBytes g offset 512
    if result.ok = false then pure (some .deviceError)
    else if (List.range 128).all (fun i => le32 chunk (i * 4) == sum.toNat) then
      bootSumCheck sum n (offset + 512)
    else pure (some .corrupt)

/-- The boot sector and the boot checksum. -/
def readBoot (device : Medium Error) : Driver (Except MountError Boot) := do
  let blank := Boot.volume ⟨0, 0, 0, 0, 0, 0, 0, 0, 0, 0, 0⟩ 0 device
  let (result, boot) ← readBytes blank 0 512
  if result.ok = false then pure (.error .deviceError)
  else if bootSigned boot = false then pure (.error .notExfat)
  else if (List.range 53).any (fun i => boot (11 + i) != 0) then pure (.error .corrupt)
  else
    match (bootOf boot).check device with
    | some e => pure (.error e)
    | none => do
      let chunks := 2 ^ (bootOf boot).sectorShift / 512
      match ← bootSumLoop blank (11 * chunks) 0 0 with
      | none => pure (.error .deviceError)
      | some sum =>
        match ← bootSumCheck blank sum chunks (11 * chunks * 512) with
        | some e => pure (.error e)
        | none => pure (.ok (bootOf boot))

/-! ## The root directory -/

/-- The root directory's clusters, counted along the FAT; `cluster` is number `count`. -/
def rootLengthLoop : ℕ → ℕ → ℕ → Driver (Option ℕ)
  | 0, _, _ => pure none
  | fuel + 1, cluster, count => do
    match ← fatNext g cluster with
    | none => pure none
    | some next =>
      if next = endOfChain then pure (some count)
      else if next < firstDataCluster ∨ g.clusterCount + 1 < next ∨ g.clusterCount ≤ count then
        pure none
      else rootLengthLoop fuel next (count + 1)

/-- The required entries of the root directory: the bitmap's stream, and the up-case table's
with its checksum. -/
structure SystemEntries where
  bitmap : Option Stream
  upcase : Option (Stream × ℕ)
deriving DecidableEq, Repr

/-- The stream that a system entry describes. -/
def systemStream (entry : Bytes) : Stream := ⟨le32 entry 20, le64 entry 24, le64 entry 24, false⟩

/-- One entry of the root directory; only the first of each kind counts. -/
def SystemEntries.add (found : SystemEntries) (entry : Bytes) : SystemEntries :=
  if entry 0 = typeBitmap ∧ found.bitmap = none then
    { found with bitmap := some (systemStream entry) }
  else if entry 0 = typeUpcase ∧ found.upcase = none then
    { found with upcase := some (systemStream entry, le32 entry 4) }
  else found

/-- The scan of the root directory up to its end marker. -/
def rootScanLoop (root : Stream) : ℕ → ℕ → SystemEntries → Driver (Option SystemEntries)
  | 0, _, found => pure (some found)
  | fuel + 1, offset, found =>
    if offset < root.length then do
      let (result, entry) ← readStream g root offset entryBytes
      if result.ok = false then pure none
      else if entry 0 = typeEnd then pure (some found)
      else rootScanLoop root fuel (offset + entryBytes) (found.add entry)
    else pure (some found)

/-! ## The up-case table -/

/-- The state of the loop over the up-case table. -/
structure UpcaseLoad where
  table : UInt16 → UInt16
  nextUnit : ℕ
  runFollows : Bool
  sum : UInt32

/-- One value of a compressed table: `0xFFFF` announces a run of units that map to themselves. -/
def UpcaseLoad.add (u : UpcaseLoad) (value : ℕ) : UpcaseLoad :=
  if u.runFollows then { u with nextUnit := u.nextUnit + value, runFollows := false }
  else if value = 0xFFFF then { u with runFollows := true }
  else if u.nextUnit < 65536 then
    { u with
      table := fun unit =>
        if unit.toNat = u.nextUnit then UInt16.ofNat value else u.table unit
      nextUnit := u.nextUnit + 1 }
  else u

/-- The bytes of one chunk of the table. -/
def UpcaseLoad.addChunk (u : UpcaseLoad) (chunk : Bytes) (bytes : ℕ) : UpcaseLoad :=
  let u := { u with sum := (List.range bytes).foldl (fun sum i => checksum32 sum (chunk i)) u.sum }
  (List.range (bytes / 2)).foldl (fun u i => u.add (le16 chunk (i * 2))) u

def loadUpcaseLoop (table : Stream) : ℕ → ℕ → UpcaseLoad → Driver (Option UpcaseLoad)
  | 0, _, u => pure (some u)
  | fuel + 1, offset, u =>
    if offset < table.length then do
      let bytes := min (table.length - offset) 512
      let (result, chunk) ← readStream g table offset bytes
      if result.ok then loadUpcaseLoop table fuel (offset + 512) (u.addChunk chunk bytes)
      else pure none
    else pure (some u)

/-- `load_upcase`. -/
def loadUpcase (table : Stream) (checksum : ℕ) : Driver (Option (UInt16 → UInt16)) :=
  if table.length = 0 ∨ 2 * 65536 * 2 < table.length ∨ table.length % 2 ≠ 0 ∨
      table.firstCluster < firstDataCluster ∨ g.clusterCount + 1 < table.firstCluster then
    pure none
  else do
    match ← loadUpcaseLoop g table table.length 0 ⟨id, 0, false, 0⟩ with
    | none => pure none
    | some u => pure (if u.sum.toNat = checksum then some u.table else none)

/-! ## The flags -/

/-- `set_volume_flags`: while the volume is mounted writable, PercentInUse is unknown. -/
def setVolumeFlags (dirty : Bool) : Driver Bool := do
  let flags :=
    if dirty then g.volumeFlags ||| volumeFlagDirty else g.volumeFlags &&& 0xFFFD
  let written ← writeBytes g volumeFlagsOffset (put16 (fun _ => 0) 0 flags) 2
  if written.ok = false then pure false
  else if dirty = false then pure true
  else do
    let written ← writeBytes g percentInUseOffset (fun _ => 0xFF) 1
    pure written.ok

/-- VolumeDirty goes to the device. -/
def markDirty : Driver Bool := do
  if ← setVolumeFlags g true then flushBlocks else pure false

/-- The end of `mount`: a clean volume with one FAT becomes writable once VolumeDirty is on the
device. -/
def makeWritable (fatCount : ℕ) (writable : Bool) : Driver Volume :=
  if writable = true ∧ g.dirty = false ∧ fatCount = 1 then do
    if ← markDirty g then pure { g with writable := true }
    else do
      let _ ← setVolumeFlags g false
      pure g
  else pure g

/-- `mount`, on a device of a block size that the driver takes. The heap decides whether there
is room for the bounce buffer and the up-case table. -/
def mount (self : ℕ) (device : Medium Error) (writable bounceRoom upcaseRoom : Bool) :
    Driver (Except MountError Volume) :=
  let block := device.blockSize
  if block < 512 ∨ maxBlockBytes < block ∨ block &&& (block - 1) ≠ 0 then
    pure (.error .unsupported)
  else if bounceRoom = false then pure (.error .outOfMemory)
  else do
    match ← readBoot device with
    | .error e => pure (.error e)
    | .ok boot =>
      let g := boot.volume self device
      match ← rootLengthLoop g boot.clusters boot.rootCluster 1 with
      | none => pure (.error .corrupt)
      | some clusters =>
        let length := clusters * g.clusterBytes
        let root : Stream := ⟨boot.rootCluster, length, length, false⟩
        modify fun s => { s with root }
        match ← rootScanLoop g root (length / entryBytes + 1) 0 ⟨none, none⟩ with
        | some ⟨some bitmap, some (table, checksum)⟩ =>
          if upcaseRoom = false then pure (.error .outOfMemory)
          else
            match ← loadUpcase g table checksum with
            | none => pure (.error .corrupt)
            | some upcase =>
              if bitmap.length < (boot.clusters + 7) / 8 ∨
                  bitmap.firstCluster < firstDataCluster ∨
                  boot.clusters + 1 < bitmap.firstCluster then pure (.error .corrupt)
              else do
                let g ← makeWritable { g with bitmap, upcase } boot.fatCount writable
                pure (.ok g)
        | _ => pure (.error .corrupt)

/-- The state of an object that is not mounted. -/
def State.initial : State := ⟨Stream.empty, firstDataCluster, Cursor.none⟩

/-- `unmount`; the object is not mounted afterwards, whatever the flushes report. -/
def unmount : Driver Unit :=
  if g.writable then do
    let _ ← flushBlocks
    let _ ← setVolumeFlags g false
    let _ ← flushBlocks
    pure ()
  else pure ()

end ShirleysOS.Exfat
