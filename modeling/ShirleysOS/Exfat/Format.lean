import ShirleysOS.Lib.Bytes
import ShirleysOS.Storage.BlockDevice
import ShirleysOS.Text.Utf

/-!
# The exFAT format

The on-disk format as the driver reads it: directory entries of 32 bytes, sets of them that
describe one file or directory, the checksums, and the identifiers of nodes. Source: the
helpers at the head of `kernel/fs/exfat.cpp`, and `include/shirley/exfat.hpp`.
-/

namespace ShirleysOS.Exfat

open Lib

/-! ## Constants -/

def entryBytes : ℕ := 32

def nameUnitsPerEntry : ℕ := 15

def maxSetEntries : ℕ := 19

def firstDataCluster : ℕ := 2

def endOfChain : ℕ := 0xFFFFFFFF

def maxBlockBytes : ℕ := 4096

def maxSlot : ℕ := 2 ^ 23 - 1

def typeEnd : UInt8 := 0x00

def typeBitmap : UInt8 := 0x81

def typeUpcase : UInt8 := 0x82

def typeFile : UInt8 := 0x85

def typeInUseBit : UInt8 := 0x80

def typeStream : UInt8 := 0xC0

def typeName : UInt8 := 0xC1

def secondaryFlagContiguous : UInt8 := 0x02

def secondaryFlagAllocationPossible : UInt8 := 0x01

def volumeFlagActiveFat : ℕ := 0x0001

def volumeFlagDirty : ℕ := 0x0002

def volumeFlagsOffset : ℕ := 106

def percentInUseOffset : ℕ := 112

def attributeDirectory : ℕ := 0x10

def attributeArchive : ℕ := 0x20

def maxDirectoryBytes : ℕ := 256 * 1024 * 1024

def epochTimestamp : ℕ := 2 ^ 21 + 2 ^ 16

/-! ## Numbers and checksums -/

def le16 (b : Bytes) (i : ℕ) : ℕ := b.nat i 2

def le32 (b : Bytes) (i : ℕ) : ℕ := b.nat i 4

def le64 (b : Bytes) (i : ℕ) : ℕ := b.nat i 8

def put16 (b : Bytes) (i value : ℕ) : Bytes := b.put i 2 value

def put32 (b : Bytes) (i value : ℕ) : Bytes := b.put i 4 value

def put64 (b : Bytes) (i value : ℕ) : Bytes := b.put i 8 value

def checksum32 (sum : UInt32) (byte : UInt8) : UInt32 :=
  (if sum &&& 1 ≠ 0 then (0x80000000 : UInt32) else 0) + (sum >>> 1) + byte.toUInt32

def checksum16 (sum : UInt16) (byte : UInt8) : UInt16 :=
  (if sum &&& 1 ≠ 0 then (0x8000 : UInt16) else 0) + (sum >>> 1) + byte.toUInt16

/-! ## Streams and entries -/

/-- `Stream`: a run of clusters, the content of a file or directory. -/
structure Stream where
  firstCluster : ℕ
  length : ℕ
  validLength : ℕ
  contiguous : Bool
deriving DecidableEq, Repr

/-- A stream without clusters, as the constructor makes it. -/
def Stream.empty : Stream := ⟨0, 0, 0, false⟩

/-- `Entry`: a decoded set of directory entries. Its slot is where it sits in its directory, in
entries. -/
structure Entry where
  stream : Stream
  attributes : ℕ
  nameHash : ℕ
  name : List UInt16
  slot : ℕ
deriving DecidableEq, Repr

/-- `Entry::directory`. -/
def Entry.directory (e : Entry) : Bool := e.attributes &&& attributeDirectory != 0

/-- The units that no name may contain. -/
def forbiddenUnit (unit : UInt16) : Bool :=
  unit < 0x20 || unit == 0x22 || unit == 0x2A || unit == 0x2F || unit == 0x3A || unit == 0x3C ||
    unit == 0x3E || unit == 0x3F || unit == 0x5C || unit == 0x7C

/-- `legal_name`. -/
def legalName (name : List UInt16) : Bool :=
  !(name.length == 0 || name.length > 255) && !(name == [0x2E] || name == [0x2E, 0x2E]) &&
    name.all fun unit => !forbiddenUnit unit

/-- The hash of an up-cased name: low byte first. -/
def nameHash (upcase : UInt16 → UInt16) (name : List UInt16) : UInt16 :=
  name.foldl (fun hash unit =>
    checksum16 (checksum16 hash ((upcase unit).toUInt8)) ((upcase unit >>> 8).toUInt8)) 0

/-! ## Sets of entries -/

/-- The checksum of a set: every byte but the two that hold it. -/
def setChecksum (set : Bytes) (bytes : ℕ) : UInt16 :=
  (List.range bytes).foldl (fun sum i => if i ≠ 2 ∧ i ≠ 3 then checksum16 sum (set i) else sum) 0

/-- How many name entries a name takes. -/
def nameEntries (length : ℕ) : ℕ := (length + nameUnitsPerEntry - 1) / nameUnitsPerEntry

/-- What `next_entry` demands of a set with `secondaries` entries after the first: the checksum,
a stream entry, the name entries and, after those, secondary entries in use. -/
def setValid (set : Bytes) (secondaries : ℕ) : Bool :=
  let nameLength := (set (entryBytes + 3)).toNat
  (setChecksum set ((secondaries + 1) * entryBytes)).toNat == le16 set 2 &&
    set entryBytes == typeStream && nameLength != 0 && nameEntries nameLength ≤ secondaries - 1 &&
    (List.range (nameEntries nameLength)).all (fun i => set ((2 + i) * entryBytes) == typeName) &&
    (List.range (secondaries + 1)).all (fun i =>
      i < 2 + nameEntries nameLength || set (i * entryBytes) &&& 0xC0 == 0xC0)

/-- One unit of the name in a set. -/
def nameUnit (set : Bytes) (i : ℕ) : UInt16 :=
  UInt16.ofNat (le16 set ((2 + i / nameUnitsPerEntry) * entryBytes + 2 +
    i % nameUnitsPerEntry * 2))

/-- The entry that a set describes. -/
def entryOfSet (set : Bytes) (slot : ℕ) : Entry where
  stream :=
    { firstCluster := le32 set (entryBytes + 20)
      length := le64 set (entryBytes + 24)
      validLength := le64 set (entryBytes + 8)
      contiguous := set (entryBytes + 1) &&& secondaryFlagContiguous != 0 }
  attributes := le16 set 4
  nameHash := le16 set (entryBytes + 4)
  name := (List.range (set (entryBytes + 3)).toNat).map (nameUnit set)
  slot

/-! ## Node identifiers -/

/-- The identifier of the root directory. -/
def rootId : ℕ := 0

/-- `encode_id`: the parent directory's first cluster, the slot, and whether the parent is
contiguous. -/
def encodeId (parent : Stream) (slot : ℕ) : ℕ :=
  parent.firstCluster + slot * 2 ^ 32 + parent.contiguous.toNat * 2 ^ 55

end ShirleysOS.Exfat
