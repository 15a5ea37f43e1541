import ShirleysOS.Checksum.Crc32
import ShirleysOS.Lib.BlockIo
import ShirleysOS.Lib.Memory
import ShirleysOS.Storage.BlockDevice

/-!
# Partition tables

A disk is divided by a master boot record of four entries, some of which may hold a chain of
further ones, or by a GUID partition table, which has a copy at the end of the disk. `read`
gives the partitions of either as one list; a partition is then a window onto the blocks of the
disk. Source: `kernel/fs/partition.cpp`, `include/shirley/partition.hpp`.

Numbers of the source are of 64 bits. Sums of the 32-bit fields of a boot record do not reach
that, and those of a GUID partition table are compared with the size of the disk first, so
that the numbers here are unbounded; the window is the exception.
-/

namespace ShirleysOS.Partition

open Lib Storage

/-! ## Windows -/

/-- `io::Partition`, attached to a disk. -/
structure Window where
  first : ℕ
  count : ℕ
deriving DecidableEq, Repr

namespace Window

/-- What `read_blocks` and `write_blocks` ask of the disk, or the error that they report. -/
def request (w : Window) (first count : ℕ) (buffer : Bool) : Except Error (ℕ × ℕ) :=
  if count ≠ 0 ∧ !buffer then .error .invalidArgument
  else if w.count < first ∨ w.count - first < count then .error .outOfRange
  else .ok (Word.add w.first first, count)

/-- `read_blocks`: the outcome, the bytes and the disk. -/
def readBlocks (w : Window) (disk : Device) (first count : ℕ) (buffer : Bool) :
    Result × Bytes × Device :=
  match w.request first count buffer with
  | .error error => (⟨0, error⟩, fun _ => 0, disk)
  | .ok (first, count) => disk.readBlocks first count

/-- `write_blocks`. -/
def writeBlocks (w : Window) (disk : Device) (first count : ℕ) (buffer : Bool) (data : Bytes) :
    Result × Device :=
  match w.request first count buffer with
  | .error error => (⟨0, error⟩, disk)
  | .ok (first, count) => disk.writeBlocks first count data

end Window

/-! ## Tables -/

/-- `Scheme`. -/
inductive Scheme
  | none
  | mbr
  | gpt
deriving DecidableEq, Repr

/-- `Entry`. -/
structure Entry where
  number : ℕ
  first : ℕ
  count : ℕ
  mbrType : UInt8
  typeGuid : List UInt8
deriving DecidableEq, Repr

/-- The window onto a partition. -/
def Entry.window (e : Entry) : Window := ⟨e.first, e.count⟩

abbrev maxEntries : ℕ := 16

/-- `Table`. -/
structure Table where
  scheme : Scheme := .none
  entries : List Entry := []
  truncated : Bool := false
  usedBackup : Bool := false
deriving DecidableEq, Repr

/-- `add`. -/
def Table.add (table : Table) (entry : Entry) : Table :=
  if table.entries.length = maxEntries then { table with truncated := true }
  else { table with entries := table.entries ++ [entry] }

/-! ## Boot records -/

abbrev mbrTable : ℕ := 446

abbrev mbrEntryBytes : ℕ := 16

abbrev mbrTypeProtective : UInt8 := 0xEE

abbrev maxLogical : ℕ := 64

abbrev maxGptArray : ℕ := 1024 * 1024

/-- `extended_type`. -/
def extendedType (type : UInt8) : Bool := type == 0x05 || type == 0x0F || type == 0x85

/-- `has_signature`. -/
def hasSignature (block : Bytes) : Bool := block 510 == 0x55 && block 511 == 0xAA

/-- The bytes from `offset` on are `text`. -/
def textAt (block : Bytes) : ℕ → List UInt8 → Bool
  | _, [] => true
  | offset, c :: text => block offset == c && textAt block (offset + 1) text

/-- `EXFAT` and three blanks. -/
def exfatText : List UInt8 := [0x45, 0x58, 0x46, 0x41, 0x54, 0x20, 0x20, 0x20]

/-- `NTFS` and four blanks. -/
def ntfsText : List UInt8 := [0x4E, 0x54, 0x46, 0x53, 0x20, 0x20, 0x20, 0x20]

/-- `FAT`. -/
def fatText : List UInt8 := [0x46, 0x41, 0x54]

/-- `FAT32`. -/
def fat32Text : List UInt8 := [0x46, 0x41, 0x54, 0x33, 0x32]

/-- `EFI PART`. -/
def gptText : List UInt8 := [0x45, 0x46, 0x49, 0x20, 0x50, 0x41, 0x52, 0x54]

/-- `file_system_boot_sector`. -/
def fileSystemBootSector (block : Bytes) : Bool :=
  textAt block 3 exfatText || textAt block 3 ntfsText || textAt block 54 fatText ||
    textAt block 82 fat32Text

/-- An entry of a boot record. -/
structure MbrEntry where
  status : UInt8
  type : UInt8
  start : ℕ
  count : ℕ
deriving DecidableEq, Repr

/-- The entry at `index` of the boot record in `block`. -/
def mbrEntry (block : Bytes) (index : ℕ) : MbrEntry :=
  let entry := block.slice (mbrTable + index * mbrEntryBytes)
  ⟨entry 0, entry 4, entry.nat 8 4, entry.nat 12 4⟩

/-- `read_blocks` of one block: `none` when it fails. -/
def readBlock (lba : ℕ) : Io Error (Option Bytes) := .read lba 1 fun r => .pure r.toOption

/-- The logical partition in the boot record at `ebr`, when it has one inside the extended
partition. -/
def logicalAt (block : Bytes) (base length ebr number : ℕ) : Option Entry :=
  let logical := mbrEntry block 0
  if logical.type ≠ 0 ∧ logical.count ≠ 0 ∧ logical.start ≠ 0 ∧
      ebr + logical.start + logical.count ≤ base + length then
    some ⟨number, ebr + logical.start, logical.count, logical.type, List.replicate 16 0⟩
  else none

/-- Where the chain goes on after `block`. -/
def followingEbr (block : Bytes) (base length : ℕ) : Option ℕ :=
  let next := mbrEntry block 1
  if !extendedType next.type ∨ next.start = 0 ∨ base + length ≤ base + next.start then none
  else some (base + next.start)

/-- The loop of `read_logical`, with the steps that are left: `none` when a read fails. -/
def logicalLoop (base length : ℕ) : ℕ → ℕ → ℕ → Table → Io Error (Option Table)
  | 0, _, _, table => pure (some table)
  | step + 1, ebr, number, table => do
    match ← readBlock ebr with
    | none => pure none
    | some block =>
      if !hasSignature block then pure (some table)
      else
        let found := logicalAt block base length ebr number
        let table := found.elim table table.add
        let number := if found.isSome then number + 1 else number
        match followingEbr block base length with
        | none => pure (some table)
        | some following => logicalLoop base length step following number table

/-- `read_logical`. -/
def readLogical (base length : ℕ) (table : Table) : Io Error (Option Table) :=
  logicalLoop base length maxLogical base 5 table

/-! ## GUID partition tables -/

/-- The partition of the entry at `index` of the array, on a disk of `blocks` blocks. -/
def gptEntry (blocks : ℕ) (entry : Bytes) (index : ℕ) : Option Entry :=
  let guid := (List.range 16).map entry
  let first := entry.nat 32 8
  let last := entry.nat 40 8
  if guid.all (· == 0) then none
  else if last < first ∨ blocks ≤ last then none
  else some ⟨index + 1, first, last - first + 1, 0, guid⟩

/-- The loop over the entries in the first `bytes` of `block`. -/
def entryLoop (blocks entryBytes : ℕ) (block : Bytes) (bytes : ℕ) :
    ℕ → ℕ → ℕ → Table → Table × ℕ
  | 0, _, index, table => (table, index)
  | fuel + 1, offset, index, table =>
    if offset < bytes then
      let table := (gptEntry blocks (block.slice offset) index).elim table table.add
      entryLoop blocks entryBytes block bytes fuel (offset + entryBytes) (index + 1) table
    else (table, index)

/-- The loop over the blocks of the array, with the blocks that are left: the check and the
table, or `none` when a read fails. -/
def arrayLoop (blockBytes blocks arrayLba entryBytes : ℕ) :
    ℕ → ℕ → UInt32 → ℕ → ℕ → Table → Io Error (Option (UInt32 × Table))
  | 0, _, crc, _, _, table => pure (some (crc, table))
  | left + 1, at_, crc, remaining, index, table => do
    match ← readBlock (arrayLba + at_) with
    | none => pure none
    | some block =>
      let bytes := if remaining < blockBytes then remaining else blockBytes
      let crc := Checksum.crc32 block bytes crc
      let (table, index) := entryLoop blocks entryBytes block bytes bytes 0 index table
      arrayLoop blockBytes blocks arrayLba entryBytes left (at_ + 1) crc (remaining - bytes) index
        table

/-- The fields of a header that `read_gpt` uses after its check. -/
structure GptHeader where
  arrayLba : ℕ
  entryTotal : ℕ
  entryBytes : ℕ
  arrayCrc : ℕ
deriving DecidableEq, Repr

namespace GptHeader

def arrayBytes (h : GptHeader) : ℕ := h.entryTotal * h.entryBytes

def arrayBlocks (h : GptHeader) (blockBytes : ℕ) : ℕ :=
  (h.arrayBytes + blockBytes - 1) / blockBytes

/-- The entries do not cross blocks, and the array is inside the disk. -/
def InRange (h : GptHeader) (blockBytes blocks : ℕ) : Prop :=
  128 ≤ h.entryBytes ∧ h.entryBytes &&& (h.entryBytes - 1) = 0 ∧
    blockBytes % h.entryBytes = 0 ∧ h.arrayBytes ≠ 0 ∧ h.arrayBytes ≤ maxGptArray ∧
    h.arrayLba < blocks ∧ h.arrayBlocks blockBytes ≤ blocks - h.arrayLba

instance (h : GptHeader) (blockBytes blocks : ℕ) : Decidable (h.InRange blockBytes blocks) :=
  inferInstanceAs (Decidable (_ ∧ _))

end GptHeader

/-- The header in `block`, when its signature, sizes, place and check are right. -/
def gptHeader (blockBytes lba : ℕ) (block : Bytes) : Option GptHeader :=
  if !textAt block 0 gptText then none
  else
    let headerBytes := block.nat 12 4
    let headerCrc := block.nat 16 4
    if headerBytes < 92 ∨ blockBytes < headerBytes ∨ block.nat 24 8 ≠ lba then none
    else
      -- the check is made with the field of the check itself cleared
      let block := block.splice 16 4 fun _ => 0
      if (Checksum.crc32 block headerBytes 0).toNat ≠ headerCrc then none
      else some ⟨block.nat 72 8, block.nat 80 4, block.nat 84 4, block.nat 88 4⟩

/-- `read_gpt`: `none` when it returns false. -/
def readGpt (blockBytes blocks lba : ℕ) : Io Error (Option Table) := do
  match ← readBlock lba with
  | none => pure none
  | some block =>
    match gptHeader blockBytes lba block with
    | none => pure none
    | some header =>
      if ¬ header.InRange blockBytes blocks then pure none
      else
        let outcome ← arrayLoop blockBytes blocks header.arrayLba header.entryBytes
          (header.arrayBlocks blockBytes) 0 0 header.arrayBytes 0 { scheme := .gpt }
        match outcome with
        | none => pure none
        | some (crc, table) =>
          if crc.toNat = header.arrayCrc then pure (some table) else pure none

/-! ## `read` -/

/-- The loop that looks whether the boot record is a partition table: `none` when it is not, and
otherwise whether it protects a GUID partition table. -/
def checkEntries (blocks : ℕ) (block : Bytes) : List ℕ → Bool → Option Bool
  | [], protective => some protective
  | index :: rest, protective =>
    let entry := mbrEntry block index
    if entry.status ≠ 0x00 ∧ entry.status ≠ 0x80 then none
    else if entry.type = 0 then checkEntries blocks block rest protective
    else
      let protective := if entry.type = mbrTypeProtective then true else protective
      if entry.type ≠ mbrTypeProtective ∧
          (entry.start = 0 ∨ entry.count = 0 ∨ blocks < entry.start + entry.count) then none
      else checkEntries blocks block rest protective

/-- The loop over the entries of the boot record: `none` when a read fails. -/
def primaryLoop (block : Bytes) : List ℕ → Table → Io Error (Option Table)
  | [], table => pure (some table)
  | index :: rest, table =>
    let primary := mbrEntry block index
    if primary.type = 0 then primaryLoop block rest table
    else if extendedType primary.type then do
      match ← readLogical primary.start primary.count table with
      | none => pure none
      | some table => primaryLoop block rest table
    else
      primaryLoop block rest (table.add
        ⟨index + 1, primary.start, primary.count, primary.type, List.replicate 16 0⟩)

/-- `read`: what it returns, and the table. `memory` says whether there is memory for a block. -/
def read (blockBytes blocks : ℕ) (memory : Bool) : Io Error (Bool × Table) := do
  if blockBytes < 512 ∨ 4096 < blockBytes then pure (false, {})
  else if blocks < 2 then pure (true, {})
  else if !memory then pure (false, {})
  else
    match ← readBlock 0 with
    | none => pure (false, {})
    | some block =>
      if !hasSignature block || fileSystemBootSector block then pure (true, {})
      else
        match checkEntries blocks block [0, 1, 2, 3] false with
        | none => pure (true, {})
        | some true =>
          match ← readGpt blockBytes blocks 1 with
          | some table => pure (true, table)
          | none =>
            match ← readGpt blockBytes blocks (blocks - 1) with
            | some table => pure (true, { table with usedBackup := true })
            | none => pure (false, {})
        | some false =>
          match ← primaryLoop block [0, 1, 2, 3] { scheme := .mbr } with
          | some table => pure (true, table)
          | none => pure (false, {})

end ShirleysOS.Partition
