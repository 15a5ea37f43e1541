import ShirleysOS.Checksum.Crc32
import ShirleysOS.Lib.Bytes

/-!
# The ext4 disk format

What the driver decodes: the superblock, where group descriptors are, inodes, the nodes of extent
trees and the records of directories. Everything is little-endian. Source: `kernel/fs/ext4.cpp`,
`include/shirley/ext4.hpp`.
-/

namespace ShirleysOS.Ext4

open Lib

/-- `MountError`, but for success and for a volume that is mounted already. -/
inductive MountError
  | notExt4
  | unsupported
  | needsRecovery
  | corrupt
  | deviceError
  | outOfMemory
deriving DecidableEq, Repr

/-! ## Constants -/

abbrev superblockOffset : ℕ := 1024

abbrev superblockBytes : ℕ := 1024

def magic : ℕ := 0xEF53

def maxDeviceBlock : ℕ := 4096

def maxBlockShift : ℕ := 16

def rootInode : ℕ := 2

abbrev inodeCoreBytes : ℕ := 128

def compatSparseSuper2 : UInt32 := 0x0200

def incompatFiletype : UInt32 := 0x0002

def incompatRecover : UInt32 := 0x0004

def incompatMetaBg : UInt32 := 0x0010

def incompat64bit : UInt32 := 0x0080

def incompatLargedir : UInt32 := 0x4000

/-- The features that a read-only mount understands: filetype, recover, meta_bg, extents, 64bit,
mmp, flex_bg, ea_inode, csum_seed, largedir, encrypt and casefold. -/
def incompatSupported : UInt32 :=
  0x0002 ||| 0x0004 ||| 0x0010 ||| 0x0040 ||| 0x0080 ||| 0x0100 ||| 0x0200 ||| 0x0400 |||
    0x2000 ||| 0x4000 ||| 0x10000 ||| 0x20000

def roCompatSparseSuper : UInt32 := 0x0001

def roCompatBigalloc : UInt32 := 0x0200

def roCompatMetadataCsum : UInt32 := 0x0400

def inodeFlagEncrypt : UInt32 := 0x00000800

def inodeFlagHugeFile : UInt32 := 0x00040000

def inodeFlagExtents : UInt32 := 0x00080000

def inodeFlagInlineData : UInt32 := 0x10000000

/-- A flag is set. -/
def has (flags flag : UInt32) : Bool := flags &&& flag != 0

/-- `le32`, where flags are read. -/
def flagsAt (b : Bytes) (offset : ℕ) : UInt32 := UInt32.ofNat (b.nat offset 4)

/-! ## The superblock -/

/-- What `mount` keeps of the superblock. -/
structure Layout where
  blocksCount : ℕ
  blockShift : ℕ
  inodesCount : ℕ
  inodesPerGroup : ℕ
  blocksPerGroup : ℕ
  groupCount : ℕ
  firstDataBlock : ℕ
  firstMetaBg : ℕ
  backupGroups : ℕ × ℕ
  inodeBytes : ℕ
  descriptorBytes : ℕ
  compatible : UInt32
  incompatible : UInt32
  readOnlyCompatible : UInt32
deriving DecidableEq, Repr

/-- `block_bytes_`. -/
def Layout.blockBytes (l : Layout) : ℕ := 2 ^ l.blockShift

/-- The bytes of the volume. -/
def Layout.volumeBytes (l : Layout) : ℕ := l.blocksCount * l.blockBytes

/-- The fields of a superblock, before they are checked. -/
def superblockFields (sb : Bytes) : Layout :=
  let revision := sb.nat 76 4
  let incompatible := if revision = 1 then flagsAt sb 96 else 0
  let wide := has incompatible incompat64bit
  let blocksCount := sb.nat 4 4 + if wide then sb.nat 336 4 * 2 ^ 32 else 0
  let firstDataBlock := sb.nat 20 4
  let blocksPerGroup := sb.nat 32 4
  { blocksCount
    blockShift := 10 + sb.nat 24 4
    inodesCount := sb.nat 0 4
    inodesPerGroup := sb.nat 40 4
    blocksPerGroup
    groupCount := (blocksCount - firstDataBlock + blocksPerGroup - 1) / blocksPerGroup
    firstDataBlock
    firstMetaBg := if has incompatible incompatMetaBg then sb.nat 260 4 else 0
    backupGroups := (sb.nat 588 4, sb.nat 592 4)
    inodeBytes := if revision = 0 then 128 else sb.nat 88 2
    descriptorBytes := if wide then sb.nat 254 2 else 32
    compatible := if revision = 1 then flagsAt sb 92 else 0
    incompatible
    readOnlyCompatible := if revision = 1 then flagsAt sb 100 else 0 }

/-- What `mount` checks of the superblock, in its order. -/
def superblock (sb : Bytes) (deviceBytes : ℕ) : Except MountError Layout :=
  let l := superblockFields sb
  if sb.nat 56 2 ≠ magic then .error .notExt4
  else if maxBlockShift - 10 < sb.nat 24 4 then .error .unsupported
  else if 1 < sb.nat 76 4 then .error .unsupported
  else if l.inodeBytes < inodeCoreBytes ∨ l.blockBytes < l.inodeBytes ∨
      l.inodeBytes &&& (l.inodeBytes - 1) ≠ 0 then .error .corrupt
  else if l.incompatible &&& ~~~incompatSupported ≠ 0 ∨
      has l.readOnlyCompatible roCompatBigalloc then .error .unsupported
  else if has l.incompatible incompatRecover then .error .needsRecovery
  else if has l.readOnlyCompatible roCompatMetadataCsum ∧ sb 373 ≠ 1 then .error .unsupported
  else if has l.readOnlyCompatible roCompatMetadataCsum ∧
      (~~~Checksum.crc32c sb (superblockBytes - 4) 0).toNat ≠ sb.nat (superblockBytes - 4) 4 then
    .error .corrupt
  else if l.blocksPerGroup < 8 ∨ 8 * l.blockBytes < l.blocksPerGroup ∨ l.inodesPerGroup = 0 ∨
      8 * l.blockBytes < l.inodesPerGroup ∨ 1 < l.firstDataBlock ∨
      l.blocksCount ≤ l.firstDataBlock ∨ 2 ^ 48 ≤ l.blocksCount then .error .corrupt
  else if has l.incompatible incompat64bit ∧ (l.descriptorBytes < 64 ∨
      l.blockBytes < l.descriptorBytes ∨ l.descriptorBytes &&& (l.descriptorBytes - 1) ≠ 0) then
    .error .corrupt
  else if l.groupCount = 0 ∨ l.groupCount * l.inodesPerGroup ≠ l.inodesCount then .error .corrupt
  else if deviceBytes / l.blockBytes < l.blocksCount then .error .corrupt
  else .ok l

/-! ## Group descriptors -/

/-- The loop of `power_of`. -/
def powerLoop (value base : ℕ) : ℕ → ℕ → ℕ
  | 0, power => power
  | fuel + 1, power => if power < value then powerLoop value base fuel (power * base) else power

/-- `power_of`, of numbers of 32 bits. -/
def powerOf (value base : ℕ) : Bool := powerLoop value base 32 base == value

/-- `has_superblock`. -/
def hasSuperblock (l : Layout) (group : ℕ) : Bool :=
  if group = 0 then true
  else if has l.compatible compatSparseSuper2 then
    group == l.backupGroups.1 || group == l.backupGroups.2
  else if group = 1 ∨ !has l.readOnlyCompatible roCompatSparseSuper then true
  else if group % 2 = 0 then false
  else powerOf group 3 || powerOf group 5 || powerOf group 7

/-- `group_descriptor_offset`. -/
def descriptorOffset (l : Layout) (group : ℕ) : Option ℕ :=
  if l.groupCount ≤ group then none
  else
    let perBlock := l.blockBytes / l.descriptorBytes
    let index := group / perBlock
    let block :=
      if has l.incompatible incompatMetaBg ∧ l.firstMetaBg ≤ index then
        let first := index * perBlock
        l.firstDataBlock + first * l.blocksPerGroup + if hasSuperblock l first then 1 else 0
      else l.firstDataBlock + 1 + index
    if l.blocksCount ≤ block then none
    else some (block * l.blockBytes + group % perBlock * l.descriptorBytes)

/-! ## Inodes -/

/-- `Inode`; `block` is the 60 bytes of `i_block`. -/
structure Inode where
  number : ℕ
  mode : ℕ
  flags : UInt32
  size : ℕ
  block : Bytes
  fastSymlink : Bool

abbrev iBlockBytes : ℕ := 60

namespace Inode

/-- `type`. -/
def type (i : Inode) : ℕ := i.mode / 2 ^ 12

def directory (i : Inode) : Bool := i.type == 4

def regular (i : Inode) : Bool := i.type == 8

def symlink (i : Inode) : Bool := i.type == 10

end Inode

/-- Where the descriptor of a group says that its inode table is; `none` when the table is not in
the volume. -/
def inodeTable (l : Layout) (descriptor : Bytes) : Option ℕ :=
  let table := descriptor.nat 8 4 + if 64 ≤ l.descriptorBytes then descriptor.nat 0x28 4 * 2 ^ 32
    else 0
  let tableBlocks := (l.inodesPerGroup * l.inodeBytes + l.blockBytes - 1) / l.blockBytes
  if table = 0 ∨ l.blocksCount ≤ table ∨ l.blocksCount - table < tableBlocks then none
  else some table

/-- What `load_inode` makes of the first 128 bytes of an inode. -/
def decodeInode (l : Layout) (number : ℕ) (raw : Bytes) : Option Inode :=
  if raw.nat 0 2 = 0 ∨ raw.nat 26 2 = 0 then none
  else
    let mode := raw.nat 0 2
    let flags := flagsAt raw 32
    let size := raw.nat 4 4 + if mode / 2 ^ 12 = 8 ∨ has l.incompatible incompatLargedir then
      raw.nat 108 4 * 2 ^ 32 else 0
    if has flags inodeFlagInlineData then none
    else
      let attributeBlocks := if raw.nat 104 4 = 0 then 0
        else if has flags inodeFlagHugeFile then 1 else l.blockBytes / 2 ^ 9
      some {
        number
        mode
        flags
        size
        block := (raw.slice 40).trim iBlockBytes
        fastSymlink := mode / 2 ^ 12 == 10 && decide (size < 60) &&
          !has flags inodeFlagExtents && raw.nat 28 4 == attributeBlocks }

/-! ## Extent trees -/

def extentMagic : ℕ := 0xF30A

abbrev maxExtentDepth : ℕ := 5

abbrev maxInitializedExtent : ℕ := 32768

abbrev logicalLimit : ℕ := 2 ^ 32

/-- The depth of a node of `nodeBytes` bytes, when its header is right. -/
def nodeDepth (node : Bytes) (nodeBytes : ℕ) : Option ℕ :=
  let entries := node.nat 2 2
  let capacity := node.nat 4 2
  let depth := node.nat 6 2
  if node.nat 0 2 ≠ extentMagic then none
  else if capacity < entries ∨ nodeBytes < 12 + capacity * 12 ∨ maxExtentDepth < depth then none
  else some depth

/-- An entry of a leaf: `count` logical blocks from `first` on are in the blocks from `start` on,
or were never written. -/
structure Extent where
  first : ℕ
  count : ℕ
  start : ℕ
  initialized : Bool
deriving DecidableEq, Repr

/-- Where the data of an extent is; zero when it reads as zeros. -/
def Extent.target (e : Extent) : ℕ := if e.initialized then e.start else 0

/-- The entry at `i` of a leaf. -/
def extentAt (node : Bytes) (i : ℕ) : Extent :=
  let entry := 12 + 12 * i
  let rawLength := node.nat (entry + 4) 2
  let initialized := decide (rawLength ≤ maxInitializedExtent)
  { first := node.nat entry 4
    count := if initialized then rawLength else rawLength - maxInitializedExtent
    start := node.nat (entry + 6) 2 * 2 ^ 32 + node.nat (entry + 8) 4
    initialized }

/-- An extent is in a volume of so many blocks. -/
def Extent.inside (blocksCount : ℕ) (e : Extent) : Bool :=
  e.start ≠ 0 && e.start < blocksCount && e.count ≤ blocksCount - e.start

/-- What a leaf says of a logical block: an extent that is out of the volume, one that holds the
block, or that there is a hole up to a limit. A target of zero reads as zeros. -/
inductive Leaf
  | bad
  | found (start length target : ℕ)
  | hole (limit : ℕ)
deriving DecidableEq, Repr

/-- The loop over the entries of a leaf from `i` on: what it finds, and how many entries it has
looked at. -/
def leafScan (node : Bytes) (blocksCount logical limit : ℕ) : ℕ → ℕ → Leaf × ℕ
  | 0, i => (.hole limit, i)
  | left + 1, i =>
    let e := extentAt node i
    if logical < e.first then (.hole (if e.first < limit then e.first else limit), i + 1)
    else if e.count ≤ logical - e.first then
      leafScan node blocksCount logical limit left (i + 1)
    else if !e.inside blocksCount then (.bad, i + 1)
    else (.found e.first e.count e.target, i + 1)

/-- The first block of the entry at `i` of an index node. -/
def indexFirst (node : Bytes) (i : ℕ) : ℕ := node.nat (12 + 12 * i) 4

/-- The loop over the entries of an index node from `i` on: the last entry that starts at or before
the block, the limit, and how many entries it has looked at. -/
def indexScan (node : Bytes) (logical limit : ℕ) : ℕ → ℕ → Option ℕ → Option ℕ × ℕ × ℕ
  | 0, i, chosen => (chosen, limit, i)
  | left + 1, i, chosen =>
    let first := indexFirst node i
    if logical < first then (chosen, if first < limit then first else limit, i + 1)
    else indexScan node logical limit left (i + 1) (some i)

/-- The child of the entry at `i` of an index node. -/
def childOf (node : Bytes) (i : ℕ) : ℕ :=
  node.nat (12 + 12 * i + 8) 2 * 2 ^ 32 + node.nat (12 + 12 * i + 4) 4

/-! ## Directories -/

/-- A directory record: the inode, the length of the record and the name. -/
structure Record where
  inode : ℕ
  record : ℕ
  name : List UInt8
deriving DecidableEq, Repr

/-- The `length` bytes from `offset` on. -/
def bytesAt (b : Bytes) (offset length : ℕ) : List UInt8 :=
  (List.range length).map fun j => b (offset + j)

/-- `rec_len`; a record of 64 KiB does not fit into 16 bits. -/
def recordLength (l : Layout) (raw : ℕ) : ℕ :=
  if l.blockBytes = 65536 then
    if raw = 65535 ∨ raw = 0 then 65536 else raw / 4 * 4 + raw % 4 * 2 ^ 16
  else raw

/-- The length of the name of the record at `within`. -/
def nameLength (l : Layout) (block : Bytes) (within : ℕ) : ℕ :=
  if has l.incompatible incompatFiletype then (block (within + 6)).toNat
  else block.nat (within + 6) 2

/-- The record at `within` of a directory block; `none` when it is malformed. -/
def decodeRecord (l : Layout) (block : Bytes) (within : ℕ) : Option Record :=
  let record := recordLength l (block.nat (within + 4) 2)
  let length := nameLength l block within
  if record < 8 ∨ record % 4 ≠ 0 ∨ l.blockBytes < within + record ∨ 255 < length ∨
      record < 8 + length then none
  else some ⟨block.nat within 4, record, bytesAt block (within + 8) length⟩

/-- The record is an entry: not an empty one, not `.` or `..`, and its name is legal. -/
def Record.isEntry (l : Layout) (r : Record) : Bool :=
  r.inode ≠ 0 && r.name ≠ [] && r.inode ≤ l.inodesCount && r.name ≠ [46] && r.name ≠ [46, 46] &&
    r.name.all fun c => c ≠ 47 && c ≠ 0

end ShirleysOS.Ext4
