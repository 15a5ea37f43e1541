import ShirleysOS.Storage.BlockDevice
import Mathlib.Data.List.Range
import Mathlib.Logic.Function.Basic

/-!
# The block cache

A fixed number of buffers hold blocks of a device. A block is acquired, which loads it and
pins its buffer, and released, which may mark it as modified; a modified block goes back to the
device when its buffer is needed for another block or on `sync`. A buffer is known by its
index, which stands for the pointer `storage + index * block_bytes`. Source:
`kernel/io/block_cache.cpp`.
-/

namespace ShirleysOS.Storage

open Lib

/-- The values of `std::uint32_t`, which counts the users of an entry. -/
def pinLimit : ℕ := 2 ^ 32

/-- The values of `std::uint64_t`, which counts the acquisitions. -/
def clockLimit : ℕ := 2 ^ 64

/-- An entry of the cache: a buffer and what it holds. -/
structure Entry where
  block : ℕ
  lastUsed : ℕ
  data : Bytes
  pins : ℕ
  valid : Bool
  dirty : Bool

/-- The cache; `ready` says that its buffers are allocated. -/
structure Cache where
  device : Device
  ready : Bool
  entries : ℕ → Entry
  capacity : ℕ
  blockBytes : ℕ
  deviceBlocks : ℕ
  clock : ℕ
  hits : ℕ
  misses : ℕ

/-- `Access`: what a block is acquired for. -/
inductive Access
  | read
  | overwrite
deriving DecidableEq, Repr

namespace Cache

def setEntry (c : Cache) (i : ℕ) (e : Entry) : Cache :=
  { c with entries := Function.update c.entries i e }

/-- A cache over `device` before it is initialized. -/
def construct (device : Device) : Cache :=
  { device
    ready := false
    entries := fun _ => ⟨0, 0, fun _ => 0, 0, false, false⟩
    capacity := 0
    blockBytes := 0
    deviceBlocks := 0
    clock := 0
    hits := 0
    misses := 0 }

/-- `BlockCache::initialize`. The heap decides in `allocated` whether there is room, and
`storage` is what its memory held before. -/
def initializeCache (c : Cache) (capacity blockBytes : ℕ) (allocated : Bool)
    (storage : ℕ → Bytes) : Bool × Cache :=
  if c.ready ∨ capacity = 0 then (false, c)
  else if c.device.blockSize = 0 then (false, c)
  else
    let bytes := if blockBytes = 0 then c.device.blockSize else blockBytes
    if bytes % c.device.blockSize ≠ 0 then (false, c)
    else if capacity > (2 ^ 64 - 1) / bytes ∨ capacity > (2 ^ 64 - 1) / 32 then (false, c)
    else if allocated = false then (false, c)
    else
      (true,
        { c with
          ready := true
          entries := fun i => ⟨0, 0, storage i, 0, false, false⟩
          capacity
          blockBytes := bytes
          deviceBlocks := bytes / c.device.blockSize
          clock := 0
          hits := 0
          misses := 0 })

/-- `block_count`. -/
def blockCount (c : Cache) : ℕ := if c.ready then c.device.blockCount / c.deviceBlocks else 0

/-! ## Entries -/

/-- `find`: the entry that holds a block. -/
def find (c : Cache) (block : ℕ) : Option ℕ :=
  (List.range c.capacity).find? fun i => (c.entries i).valid && (c.entries i).block == block

/-- The loop of `victim`. -/
def victimFrom (c : Cache) : List ℕ → Option ℕ → Option ℕ
  | [], oldest => oldest
  | i :: rest, oldest =>
    if (c.entries i).pins ≠ 0 then c.victimFrom rest oldest
    else if (c.entries i).valid = false then some i
    else
      match oldest with
      | none => c.victimFrom rest (some i)
      | some j =>
        if (c.entries i).lastUsed < (c.entries j).lastUsed then c.victimFrom rest (some i)
        else c.victimFrom rest (some j)

/-- `victim`: an empty entry, or the unpinned one unused the longest. -/
def victim (c : Cache) : Option ℕ := c.victimFrom (List.range c.capacity) none

/-- `write_back`: a failed one leaves the entry to be written again. -/
def writeBack (c : Cache) (i : ℕ) : Result × Cache :=
  let e := c.entries i
  let written := c.device.writeBlocks (e.block * c.deviceBlocks) c.deviceBlocks e.data
  (written.1,
    if written.1.ok then { c with device := written.2 }.setEntry i { e with dirty := false }
    else { c with device := written.2 })

/-! ## Acquiring and releasing -/

/-- The end of a miss: entry `i`, which holds nothing to be written any more, takes `block`. -/
def fill (c : Cache) (i block : ℕ) (access : Access) : Except Error ℕ × Cache :=
  let e := { c.entries i with valid := false, block }
  match access with
  | .overwrite => (.ok i, c.setEntry i { e with valid := true, dirty := false })
  | .read =>
    let loaded := c.device.readBlocks (block * c.deviceBlocks) c.deviceBlocks
    let filled := { c with device := loaded.2.2 }
    if loaded.1.ok then
      (.ok i, filled.setEntry i { e with data := loaded.2.1, valid := true, dirty := false })
    else (.error loaded.1.error, filled.setEntry i { e with data := loaded.2.1 })

/-- A miss: a victim is written back if it has to be, and takes `block`. -/
def load (c : Cache) (block : ℕ) (access : Access) : Except Error ℕ × Cache :=
  match c.victim with
  | none => (.error .deviceError, c)
  | some i =>
    if (c.entries i).valid && (c.entries i).dirty then
      let written := c.writeBack i
      if written.1.ok then written.2.fill i block access
      else (.error written.1.error, written.2)
    else c.fill i block access

/-- The end of `acquire` for an entry: the buffer is zeroed for an overwrite, and pinned. -/
def pinEntry (e : Entry) (access : Access) (clock : ℕ) : Entry :=
  { block := e.block
    lastUsed := clock
    data := if access = .overwrite then fun _ => 0 else e.data
    pins := (e.pins + 1) % pinLimit
    valid := e.valid
    dirty := if access = .overwrite then true else e.dirty }

def pin (c : Cache) (i : ℕ) (access : Access) : Cache :=
  let clock := (c.clock + 1) % clockLimit
  { c with clock }.setEntry i (pinEntry (c.entries i) access clock)

/-- `acquire`: the buffer of a block. -/
def acquire (c : Cache) (block : ℕ) (access : Access) : Except Error ℕ × Cache :=
  if c.ready = false then (.error .deviceError, c)
  else if block ≥ c.blockCount then (.error .outOfRange, c)
  else
    match c.find block with
    | some i => (.ok i, { c with hits := (c.hits + 1) % clockLimit }.pin i access)
    | none =>
      match { c with misses := (c.misses + 1) % clockLimit }.load block access with
      | (.ok i, loaded) => (.ok i, loaded.pin i access)
      | (.error e, loaded) => (.error e, loaded)

/-- `release`: a pointer that is no buffer, or a buffer nobody holds, is ignored. -/
def release (c : Cache) (i : ℕ) (dirty : Bool) : Cache :=
  let e := c.entries i
  if i < c.capacity ∧ e.pins ≠ 0 then
    c.setEntry i { e with pins := e.pins - 1, dirty := e.dirty || dirty }
  else c

/-! ## Whole blocks -/

/-- The loop of `read_blocks`: `n` more blocks after the first `i`. -/
def readLoop (first : ℕ) : ℕ → ℕ → Bytes → Cache → Result × Bytes × Cache
  | 0, i, out, c => (⟨i * c.blockBytes, .none⟩, out, c)
  | n + 1, i, out, c =>
    match c.acquire (first + i) .read with
    | (.error e, c) => (⟨i * c.blockBytes, e⟩, out, c)
    | (.ok k, c) =>
      readLoop first n (i + 1)
        (out.splice (i * c.blockBytes) c.blockBytes (c.entries k).data) (c.release k false)

/-- The range check of `read_blocks` and `write_blocks`. -/
def outOfRange (c : Cache) (first count : ℕ) : Bool :=
  first > c.blockCount || count > c.blockCount - first || count > (2 ^ 64 - 1) / c.blockBytes

/-- `read_blocks` into a buffer that holds `buffer`. -/
def readBlocks (c : Cache) (first count : ℕ) (buffer : Bytes) : Result × Bytes × Cache :=
  if c.ready = false then (⟨0, .deviceError⟩, buffer, c)
  else if c.outOfRange first count then (⟨0, .outOfRange⟩, buffer, c)
  else readLoop first count 0 buffer c

/-- The client's own bytes go into a buffer it holds. -/
def setData (c : Cache) (i : ℕ) (data : Bytes) : Cache :=
  c.setEntry i { c.entries i with data }

/-- The loop of `write_blocks`. -/
def writeLoop (first : ℕ) (buffer : Bytes) : ℕ → ℕ → Cache → Result × Cache
  | 0, i, c => (⟨i * c.blockBytes, .none⟩, c)
  | n + 1, i, c =>
    match c.acquire (first + i) .overwrite with
    | (.error e, c) => (⟨i * c.blockBytes, e⟩, c)
    | (.ok k, c) =>
      writeLoop first buffer n (i + 1)
        ((c.setData k
          ((c.entries k).data.splice 0 c.blockBytes (buffer.slice (i * c.blockBytes)))).release k
            true)

/-- `write_blocks`. -/
def writeBlocks (c : Cache) (first count : ℕ) (buffer : Bytes) : Result × Cache :=
  if c.ready = false then (⟨0, .deviceError⟩, c)
  else if c.outOfRange first count then (⟨0, .outOfRange⟩, c)
  else writeLoop first buffer count 0 c

/-- The loop of `sync`: the bytes written and the first failure. -/
def syncLoop : List ℕ → ℕ → Error → Cache → Result × Cache
  | [], written, failure, c => (⟨written, failure⟩, c)
  | i :: rest, written, failure, c =>
    if (c.entries i).valid && (c.entries i).dirty then
      let result := c.writeBack i
      if result.1.ok then syncLoop rest (written + c.blockBytes) failure result.2
      else
        syncLoop rest written (if failure = .none then result.1.error else failure) result.2
    else syncLoop rest written failure c

/-- The entry has to be written back. -/
def modified (c : Cache) (i : ℕ) : Bool := (c.entries i).valid && (c.entries i).dirty

/-- `dirty_count`. -/
def dirtyCount (c : Cache) : ℕ := (List.range c.capacity).countP c.modified

/-- `sync`: every modified block is tried. -/
def sync (c : Cache) : Result × Cache := syncLoop (List.range c.capacity) 0 .none c

/-- `shutdown`: the buffers go back to the heap only when everything is written. -/
def shutdown (c : Cache) : Result × Cache :=
  if c.ready = false then (⟨0, .none⟩, c)
  else
    let flushed := c.sync
    if flushed.1.ok then
      (flushed.1,
        { flushed.2 with ready := false, capacity := 0, blockBytes := 0, deviceBlocks := 0 })
    else flushed

end Cache

end ShirleysOS.Storage
