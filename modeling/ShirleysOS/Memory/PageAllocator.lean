import Mathlib.Data.Finset.Basic
import ShirleysOS.Lib.Shift

/-!
# The physical page allocator

`memory::initialize` reduces the boot loader's memory map to a table of managed extents,
and `allocate_page` and `free_page` keep a second table of the extents that are free. Both
tables are fixed arrays that are merged, shifted and split in place. Addresses are 64-bit:
they are natural numbers here, and an addition that the source leaves unguarded wraps at
`wordSize`. Source: `kernel/memory/page_allocator.cpp`.
-/

namespace ShirleysOS.Memory

open Lib

/-- The number of values of a 64-bit word. -/
def wordSize : ℕ := 2 ^ 64

def pageSize : ℕ := 4096

/-- The capacity of each extent table. -/
def maxExtents : ℕ := 4096

/-- The addresses from `begin` up to, not including, `stop`. -/
structure Extent where
  begin : ℕ
  stop : ℕ
deriving DecidableEq, Repr

/-- An extent table: the array, of which only the first `count` entries mean anything. -/
structure Table where
  extents : ℕ → Extent
  count : ℕ

/-- `MemoryType`: what the boot loader says a region is for. -/
inductive MemoryType
  | reserved
  | usable
  | firmware
  | mmio
  | reclaimable
deriving DecidableEq, Repr

structure BootMemoryRegion where
  physicalStart : UInt64
  length : UInt64
  type : MemoryType
deriving DecidableEq, Repr

/-- The part of `BootInfo` the allocator reads; `memoryRegions` is `none` for a null pointer. -/
structure BootInfo where
  version : UInt32
  memoryRegions : Option (List BootMemoryRegion)
  memoryRegionCount : UInt64
deriving DecidableEq, Repr

def currentVersion : UInt32 := 1

/-! ## Page rounding -/

def alignDown (value : ℕ) : ℕ := value - value % pageSize

/-- The whole pages inside a usable region. Address 0 is the allocation failure sentinel, so
the page there is left out. -/
def alignUsable (region : BootMemoryRegion) : Option Extent :=
  let start := region.physicalStart.toNat
  let length := region.length.toNat
  if length = 0 ∨ start > wordSize - 1 - length ∨ start > wordSize - 1 - (pageSize - 1) then none
  else
    let aligned := alignDown (start + pageSize - 1)
    let begin := if aligned = 0 then pageSize else aligned
    let stop := alignDown (start + length)
    if begin ≥ stop then none else some ⟨begin, stop⟩

/-- The pages a non-usable region touches. In the last page of the address space the end
cannot be rounded up and becomes the largest address instead. -/
def alignReserved (region : BootMemoryRegion) : Option Extent :=
  let start := region.physicalStart.toNat
  let length := region.length.toNat
  if length = 0 ∨ start > wordSize - 1 - length then none
  else
    let begin := alignDown start
    let rawEnd := start + length
    let stop :=
      if rawEnd % pageSize = 0 then rawEnd
      else if rawEnd > wordSize - 1 - (pageSize - 1) then wordSize - 1
      else alignDown (rawEnd + pageSize - 1)
    if begin ≥ stop then none else some ⟨begin, stop⟩

/-! ## Inserting an extent -/

/-- The first loop of `insert_extent`: skip the extents that end before `bound`. -/
def skipBelow (t : Table) (bound : ℕ) : ℕ → ℕ → ℕ
  | 0, first => first
  | fuel + 1, first =>
    if first < t.count ∧ (t.extents first).stop < bound then skipBelow t bound fuel (first + 1)
    else first

/-- The second loop of `insert_extent`: absorb the extents that meet `added`. -/
def absorb (t : Table) : ℕ → ℕ → Extent → ℕ × Extent
  | 0, last, added => (last, added)
  | fuel + 1, last, added =>
    if last < t.count ∧ (t.extents last).begin ≤ added.stop then
      let begin :=
        if (t.extents last).begin < added.begin then (t.extents last).begin else added.begin
      let stop :=
        if (t.extents last).stop > added.stop then (t.extents last).stop else added.stop
      absorb t fuel (last + 1) ⟨begin, stop⟩
    else (last, added)

/-- Where the extents that `added` merges with begin. -/
def mergeFirst (t : Table) (added : Extent) : ℕ := skipBelow t added.begin t.count 0

/-- Where the extents that `added` merges with end, and what they merge to. -/
def mergeLast (t : Table) (added : Extent) : ℕ × Extent :=
  absorb t t.count (mergeFirst t added) added

/-- How many extents `added` merges with. -/
def mergeCount (t : Table) (added : Extent) : ℕ := (mergeLast t added).1 - mergeFirst t added

/-- The table with the merged extents replaced by the merge: the entries behind them are
shifted from the last one down, `extents[i - removed] = extents[i - 1]`. -/
def mergeInto (t : Table) (added : Extent) : Table :=
  { extents :=
      Function.update
        (shiftEntries (mergeCount t added) (mergeLast t added).1 t.count t.extents)
        (mergeFirst t added) (mergeLast t added).2
    count := t.count - mergeCount t added + 1 }

/-- `insert_extent`: add an extent, merging it with every one it touches. It fails only when
nothing merges and the array is full. -/
def insertExtent (t : Table) (added : Extent) : Bool × Table :=
  if mergeCount t added = 0 ∧ t.count = maxExtents then (false, t) else (true, mergeInto t added)

/-! ## Subtracting an extent -/

/-- One round of the loop of `subtract_extent` at index `i`: the table and the next index. -/
def subtractStep (removed : Extent) (t : Table) (i : ℕ) : Table × ℕ :=
  let current := t.extents i
  if removed.stop ≤ current.begin ∨ removed.begin ≥ current.stop then (t, i + 1)
  else if removed.begin ≤ current.begin ∧ removed.stop ≥ current.stop then
    ({ extents := closeGap (t.count - (i + 1)) (i + 1) t.extents, count := t.count - 1 }, i)
  else if removed.begin ≤ current.begin then
    ({ t with extents := Function.update t.extents i ⟨removed.stop, current.stop⟩ }, i + 1)
  else if removed.stop ≥ current.stop then
    ({ t with extents := Function.update t.extents i ⟨current.begin, removed.begin⟩ }, i + 1)
  else
    let cut := Function.update t.extents i ⟨current.begin, removed.begin⟩
    -- with the array full, the upper half of a split extent is given up
    if t.count < maxExtents then
      ({ extents :=
          Function.update (openGap (i + 1) t.count cut) (i + 1) ⟨removed.stop, current.stop⟩
         count := t.count + 1 }, i + 1)
    else ({ t with extents := cut }, i + 1)

/-- The loop of `subtract_extent` from index `i`. -/
def subtractLoop (removed : Extent) : ℕ → Table → ℕ → Table
  | 0, t, _ => t
  | fuel + 1, t, i =>
    if i < t.count then
      subtractLoop removed fuel (subtractStep removed t i).1 (subtractStep removed t i).2
    else t

/-- `subtract_extent`. A round either leaves one entry behind or removes it, except that a
split leaves two, so twice the count bounds the rounds. -/
def subtractExtent (t : Table) (removed : Extent) : Table :=
  subtractLoop removed (2 * t.count) t 0

/-! ## Reading a table -/

/-- `count_pages` over the first `n` entries; the sum saturates at the largest word. -/
def countPages (t : Table) : ℕ → ℕ → ℕ → ℕ
  | 0, _, pages => pages
  | n + 1, i, pages =>
    let extentPages := ((t.extents i).stop - (t.extents i).begin) / pageSize
    if extentPages > wordSize - 1 - pages then wordSize - 1
    else countPages t n (i + 1) (pages + extentPages)

/-- The loop of `contains` from index `i`, for `n` entries. -/
def containsFrom (t : Table) (address : ℕ) : ℕ → ℕ → Bool
  | 0, _ => false
  | n + 1, i =>
    if address ≥ (t.extents i).begin ∧ address < (t.extents i).stop then true
    else if address < (t.extents i).begin then false
    else containsFrom t address n (i + 1)

def contains (t : Table) (address : ℕ) : Bool := containsFrom t address t.count 0

/-! ## The allocator -/

/-- The allocator's globals. -/
structure State where
  managed : Table
  freeExtents : Table
  total : ℕ
  available : ℕ

def Table.empty (t : Table) : Table := { t with count := 0 }

/-- The first loop of `initialize`: collect the usable regions. -/
def insertUsable (t : Table) : List BootMemoryRegion → Table
  | [] => t
  | region :: regions =>
    if region.type = .usable then
      match alignUsable region with
      | some extent => insertUsable (insertExtent t extent).2 regions
      | none => insertUsable t regions
    else insertUsable t regions

/-- The second loop of `initialize`: where ranges overlap, the non-usable one wins. -/
def subtractReserved (t : Table) : List BootMemoryRegion → Table
  | [] => t
  | region :: regions =>
    if region.type ≠ .usable then
      match alignReserved region with
      | some extent => subtractReserved (subtractExtent t extent) regions
      | none => subtractReserved t regions
    else subtractReserved t regions

/-- The regions `initialize` walks over. -/
def BootInfo.regions (info : BootInfo) : List BootMemoryRegion :=
  (info.memoryRegions.getD []).take info.memoryRegionCount.toNat

/-- `memory::initialize`; `s` is what the globals held before. -/
def initializeFrom (info : BootInfo) (s : State) : State :=
  let cleared : State := ⟨s.managed.empty, s.freeExtents.empty, 0, 0⟩
  if info.version ≠ currentVersion ∨
      (info.memoryRegionCount ≠ 0 ∧ info.memoryRegions = none) then cleared
  else
    let managed := subtractReserved (insertUsable cleared.managed info.regions) info.regions
    let pages := countPages managed managed.count 0 0
    { managed := managed
      freeExtents :=
        { extents := fun i =>
            if i < managed.count then managed.extents i else s.freeExtents.extents i
          count := managed.count }
      total := pages
      available := pages }

/-- `memory::allocate_page`: the first free page, or 0 when there is none. -/
def allocatePage (s : State) : ℕ × State :=
  if s.freeExtents.count = 0 then (0, s)
  else
    let head := s.freeExtents.extents 0
    let begin := (head.begin + pageSize) % wordSize
    let extents := Function.update s.freeExtents.extents 0 ⟨begin, head.stop⟩
    let free : Table :=
      if begin = head.stop then
        { extents := closeGap (s.freeExtents.count - 1) 1 extents
          count := s.freeExtents.count - 1 }
      else { s.freeExtents with extents := extents }
    (head.begin,
      { s with freeExtents := free, available := (s.available + (wordSize - 1)) % wordSize })

/-- `memory::free_page`: an address that is not an allocated page is ignored. -/
def freePage (address : UInt64) (s : State) : State :=
  let a := address.toNat
  if a % pageSize ≠ 0 ∨ contains s.managed a = false ∨ contains s.freeExtents a = true then s
  else
    match insertExtent s.freeExtents ⟨a, (a + pageSize) % wordSize⟩ with
    | (true, free) => { s with freeExtents := free, available := (s.available + 1) % wordSize }
    | (false, free) => { s with freeExtents := free }

/-- `memory::free_pages`. -/
def freePages (s : State) : ℕ := s.available

/-! ## Runs -/

inductive Call
  | allocatePage
  | freePage (address : UInt64)
deriving DecidableEq, Repr

/-- The allocator together with the pages it has returned and not been given back. -/
structure Run where
  state : State
  outstanding : Finset ℕ

def Run.step (r : Run) : Call → Run
  | .allocatePage =>
    let (page, state) := Memory.allocatePage r.state
    ⟨state, if page = 0 then r.outstanding else insert page r.outstanding⟩
  | .freePage address => ⟨Memory.freePage address r.state, r.outstanding.erase address.toNat⟩

/-- The allocator after `initialize` and then `calls`. -/
def run (info : BootInfo) (s : State) (calls : List Call) : Run :=
  calls.foldl Run.step ⟨initializeFrom info s, ∅⟩

end ShirleysOS.Memory
