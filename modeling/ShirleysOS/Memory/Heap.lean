import ShirleysOS.Lib.Memory
import Mathlib.Data.List.Basic

/-!
# The kernel heap

The heap tiles its region with blocks, each behind a header of two words, its size and a tag.
The free blocks are linked by address through a third word, which in an allocated block is the
first word of the payload. Everything lives in one byte memory, the payloads that clients
write to as well, so a header is only where the walk over the sizes says it is. Addresses and
sizes are 64-bit words and wrap. Source: `kernel/memory/heap.cpp`.
-/

namespace ShirleysOS.Heap

open Lib

def defaultAlignment : ℕ := 16

def headerBytes : ℕ := 16

/-- The smallest block: a header and the link of a free block, rounded up. -/
def minBlock : ℕ := 32

def usedTag : ℕ := 0x4445535553485248

def freeTag : ℕ := 0x4545524653485248

/-- The allocator's globals and the memory it works on; the null pointer is 0. -/
structure State where
  heapBegin : ℕ
  heapEnd : ℕ
  freeHead : ℕ
  freeBytes : ℕ
  mem : Mem

/-- `align_up`: `(value + alignment - 1) & ~(alignment - 1)`, for a power of two. -/
def alignUp (value alignment : ℕ) : ℕ :=
  Word.add value (alignment - 1) - Word.add value (alignment - 1) % alignment

/-! ## Blocks in memory -/

def blockSize (m : Mem) (block : ℕ) : ℕ := m.load block

def blockTag (m : Mem) (block : ℕ) : ℕ := m.load (block + 8)

def blockNext (m : Mem) (block : ℕ) : ℕ := m.load (block + 16)

def endOf (m : Mem) (block : ℕ) : ℕ := Word.add block (blockSize m block)

def makeFree (m : Mem) (address size next : ℕ) : Mem :=
  ((m.store address size).store (address + 8) freeTag).store (address + 16) next

/-- The loop of `allocated_block` from `cursor`. -/
def allocatedFrom (h : State) (header : ℕ) : ℕ → ℕ → Bool
  | 0, _ => false
  | fuel + 1, cursor =>
    if cursor < h.heapEnd then
      if cursor = header then blockTag h.mem cursor == usedTag
      else if cursor > header ∨ blockSize h.mem cursor < minBlock then false
      else allocatedFrom h header fuel (Word.add cursor (blockSize h.mem cursor))
    else false

/-- `allocated_block`: whether `header` is on a block boundary, and its block allocated. Every
round moves on by at least `minBlock`, so the size of the heap bounds the rounds. -/
def allocatedBlock (h : State) (header : ℕ) : Bool :=
  allocatedFrom h header (h.heapEnd - h.heapBegin) h.heapBegin

/-! ## Initialization -/

/-- `heap::initialize` over `bytes` bytes from `base`. -/
def initializeHeap (base bytes : ℕ) (mem : Mem) : State :=
  let empty : State := ⟨0, 0, 0, 0, mem⟩
  if base = 0 ∨ bytes > Word.size - 1 - base then empty
  else
    let begin := alignUp base defaultAlignment
    let stop := Word.add base bytes - Word.add base bytes % defaultAlignment
    if begin ≥ stop ∨ Word.sub stop begin < minBlock then empty
    else ⟨begin, stop, begin, Word.sub stop begin, makeFree mem begin (Word.sub stop begin) 0⟩

/-! ## Allocation -/

/-- Where the payload goes in a free block at `start`: a gap in front of it is either nothing
or a block of its own. -/
def placement (start alignment : ℕ) : ℕ :=
  let payload := alignUp (Word.add start headerBytes) alignment
  if Word.sub payload headerBytes ≠ start ∧
      Word.sub (Word.sub payload headerBytes) start < minBlock then
    alignUp (Word.add (Word.add start minBlock) headerBytes) alignment
  else payload

/-- The pointer `link` points at: `none` is `&free_head`, `some b` the link field of `b`. -/
def State.follow (h : State) : Option ℕ → ℕ
  | none => h.freeHead
  | some b => blockNext h.mem b

/-- `*link = target`. -/
def State.relink (h : State) (target : ℕ) : Option ℕ → State
  | none => { h with freeHead := target }
  | some b => { h with mem := h.mem.store (b + 16) target }

/-- The end of the block cut for a payload out of a free block that ends at `stop`: a tail too
small to be a block is folded in. -/
def carveEnd (stop payload payloadBytes : ℕ) : ℕ :=
  if Word.sub stop (Word.add payload payloadBytes) < minBlock then stop
  else Word.add payload payloadBytes

/-- The tail of a cut becomes a free block; the memory, and what now follows the cut. -/
def splitTail (m : Mem) (current blockEnd : ℕ) : Mem × ℕ :=
  if blockEnd < endOf m current then
    (makeFree m blockEnd (Word.sub (endOf m current) blockEnd) (blockNext m current), blockEnd)
  else (m, blockNext m current)

/-- The gap in front of a cut stays a free block, or the block leaves the list. -/
def splitGap (h : State) (link : Option ℕ) (current blockStart next : ℕ) : State :=
  if blockStart > current then
    { h with mem := (h.mem.store current (Word.sub blockStart current)).store (current + 16) next }
  else h.relink next link

/-- The header of the block that is handed out. -/
def markUsed (h : State) (blockStart size : ℕ) : State :=
  { h with
    mem := (h.mem.store blockStart size).store (blockStart + 8) usedTag
    freeBytes := Word.sub h.freeBytes size }

/-- The body of the loop of `allocate` once the free block `current` is chosen. -/
def carve (h : State) (link : Option ℕ) (current payload payloadBytes : ℕ) : State :=
  let blockStart := Word.sub payload headerBytes
  let blockEnd := carveEnd (endOf h.mem current) payload payloadBytes
  let tail := splitTail h.mem current blockEnd
  markUsed (splitGap { h with mem := tail.1 } link current blockStart tail.2) blockStart
    (Word.sub blockEnd blockStart)

/-- The loop of `allocate`: first fit along the free list. -/
def allocateFrom (h : State) (payloadBytes alignment : ℕ) : ℕ → Option ℕ → ℕ × State
  | 0, _ => (0, h)
  | fuel + 1, link =>
    let current := h.follow link
    if current = 0 then (0, h)
    else
      let stop := endOf h.mem current
      let payload := placement current alignment
      if Word.sub payload headerBytes ≥ stop ∨ Word.sub stop payload < payloadBytes then
        allocateFrom h payloadBytes alignment fuel (some current)
      else (payload, carve h link current payload payloadBytes)

/-- `heap::allocate`. The free blocks are disjoint, so the size of the heap bounds the rounds. -/
def allocate (h : State) (bytes alignment : ℕ) : ℕ × State :=
  if bytes = 0 ∨ alignment = 0 ∨ alignment &&& (alignment - 1) ≠ 0 then (0, h)
  else
    let alignment := if alignment < defaultAlignment then defaultAlignment else alignment
    if bytes > Word.sub h.heapEnd h.heapBegin ∨ alignment > Word.sub h.heapEnd h.heapBegin then
      (0, h)
    else allocateFrom h (alignUp bytes defaultAlignment) alignment (h.heapEnd - h.heapBegin) none

/-! ## Release -/

/-- The loop of `free`: the free blocks on either side of `header`, 0 where there is none. -/
def neighbours (m : Mem) (header : ℕ) : ℕ → ℕ → ℕ → ℕ × ℕ
  | 0, previous, next => (previous, next)
  | fuel + 1, previous, next =>
    if next ≠ 0 ∧ next < header then neighbours m header fuel next (blockNext m next)
    else (previous, next)

/-- Merge `block` with the free block `next` behind it, if they touch. -/
def mergeNext (m : Mem) (block next : ℕ) : Mem :=
  if next ≠ 0 ∧ endOf m block = next then
    (m.store block (Word.add (blockSize m block) (blockSize m next))).store (block + 16)
      (blockNext m next)
  else m

/-- Link `block` behind the free block `previous`, or merge it into it if they touch. -/
def mergePrevious (h : State) (block previous : ℕ) : State :=
  if previous = 0 then { h with freeHead := block }
  else if endOf h.mem previous = block then
    { h with
      mem := (h.mem.store previous
        (Word.add (blockSize h.mem previous) (blockSize h.mem block))).store
          (previous + 16) (blockNext h.mem block) }
  else { h with mem := h.mem.store (previous + 16) block }

/-- The end of `free`: link `block` between its neighbours and merge it with those it touches. -/
def coalesce (h : State) (block previous next : ℕ) : State :=
  mergePrevious { h with mem := mergeNext (h.mem.store (block + 16) next) block next } block
    previous

/-- The body of `free` for the header of an allocated block. -/
def release (h : State) (header : ℕ) : State :=
  let tagged := h.mem.store (header + 8) freeTag
  let sides := neighbours tagged header (h.heapEnd - h.heapBegin) 0 h.freeHead
  coalesce { h with mem := tagged, freeBytes := Word.add h.freeBytes (blockSize tagged header) }
    header sides.1 sides.2

/-- `heap::free`: a pointer that is not an allocated block's payload is ignored. -/
def free (h : State) (pointer : ℕ) : State :=
  if pointer = 0 then h
  else if pointer < Word.add h.heapBegin headerBytes ∨ pointer ≥ h.heapEnd ∨
      pointer % defaultAlignment ≠ 0 then h
  else if allocatedBlock h (Word.sub pointer headerBytes) = false then h
  else release h (Word.sub pointer headerBytes)

/-! ## Inspection -/

def capacity (h : State) : ℕ := Word.sub h.heapEnd h.heapBegin

def available (h : State) : ℕ := h.freeBytes

/-- The loop of `largest_available` from the free block `block` on. -/
def largestFrom (m : Mem) : ℕ → ℕ → ℕ → ℕ
  | 0, _, largest => largest
  | fuel + 1, block, largest =>
    if block = 0 then largest
    else largestFrom m fuel (blockNext m block)
      (max largest (Word.sub (blockSize m block) headerBytes))

def largestAvailable (h : State) : ℕ :=
  largestFrom h.mem (h.heapEnd - h.heapBegin) h.freeHead 0

/-- The first loop of `consistent`, over the free list: the number of free blocks and their
bytes, or nothing when one of them is wrong. -/
def listFree (h : State) : ℕ → ℕ → ℕ → ℕ → ℕ → Option (ℕ × ℕ)
  | 0, _, _, _, _ => none
  | fuel + 1, block, previousEnd, listed, listedBytes =>
    if block = 0 then some (listed, listedBytes)
    else if block < h.heapBegin ∨ blockSize h.mem block < minBlock ∨
        blockSize h.mem block > Word.sub h.heapEnd block ∨ blockTag h.mem block ≠ freeTag ∨
        (previousEnd ≠ 0 ∧ block ≤ previousEnd) then none
    else
      listFree h fuel (blockNext h.mem block) (endOf h.mem block) (listed + 1)
        (Word.add listedBytes (blockSize h.mem block))

/-- The second loop of `consistent`, over all blocks: the number of free ones and where the
walk ends. -/
def walkBlocks (h : State) : ℕ → ℕ → ℕ → Option (ℕ × ℕ)
  | 0, _, _ => none
  | fuel + 1, cursor, walked =>
    if cursor < h.heapEnd then
      if blockSize h.mem cursor < minBlock ∨ blockSize h.mem cursor > Word.sub h.heapEnd cursor ∨
          (blockTag h.mem cursor ≠ usedTag ∧ blockTag h.mem cursor ≠ freeTag) then none
      else
        walkBlocks h fuel (Word.add cursor (blockSize h.mem cursor))
          (if blockTag h.mem cursor = freeTag then walked + 1 else walked)
    else some (walked, cursor)

/-- `heap::consistent`. -/
def consistent (h : State) : Bool :=
  match listFree h (h.heapEnd - h.heapBegin + 1) h.freeHead 0 0 0 with
  | none => false
  | some (listed, listedBytes) =>
    match walkBlocks h (h.heapEnd - h.heapBegin + 1) h.heapBegin 0 with
    | none => false
    | some (walked, cursor) =>
      cursor == h.heapEnd && walked == listed && listedBytes == h.freeBytes

/-- The block boundaries, as `allocated_block` walks over them. -/
def headersFrom (h : State) : ℕ → ℕ → List ℕ
  | 0, _ => []
  | fuel + 1, cursor =>
    if cursor < h.heapEnd then
      cursor :: headersFrom h fuel (Word.add cursor (blockSize h.mem cursor))
    else []

def headers (h : State) : List ℕ := headersFrom h (h.heapEnd - h.heapBegin) h.heapBegin

/-! ## Runs -/

/-- An allocation in the hands of a client: what it asked for and where it got it. -/
structure Allocation where
  pointer : ℕ
  bytes : ℕ
  alignment : ℕ
deriving DecidableEq, Repr

/-- The bytes behind the header of the block whose payload is at `pointer`: what was asked for,
rounded up, and a folded tail. -/
def payloadSize (m : Mem) (pointer : ℕ) : ℕ := blockSize m (pointer - headerBytes) - headerBytes

/-- A call, or a client writing one byte of an allocation. -/
inductive Step
  | allocate (bytes alignment : ℕ)
  | free (pointer : ℕ)
  | write (allocation : Allocation) (offset : ℕ) (byte : UInt8)

/-- The heap and the live allocations. -/
structure Run where
  heap : State
  live : List Allocation

/-- One step. A client writes only inside the payload of its own live allocation. -/
def Run.step (r : Run) : Step → Run
  | .allocate bytes alignment =>
    let result := Heap.allocate r.heap bytes alignment
    ⟨result.2, if result.1 = 0 then r.live else ⟨result.1, bytes, alignment⟩ :: r.live⟩
  | .free pointer => ⟨Heap.free r.heap pointer, r.live.filter (·.pointer ≠ pointer)⟩
  | .write allocation offset byte =>
    if allocation ∈ r.live ∧ offset < payloadSize r.heap.mem allocation.pointer then
      { r with
        heap :=
          { r.heap with mem := Function.update r.heap.mem (allocation.pointer + offset) byte } }
    else r

/-- The heap over `bytes` bytes from `base` after `steps`. -/
def run (base bytes : ℕ) (mem : Mem) (steps : List Step) : Run :=
  steps.foldl Run.step ⟨initializeHeap base bytes mem, []⟩

end ShirleysOS.Heap
