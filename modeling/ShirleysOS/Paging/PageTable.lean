import Mathlib.Data.Finset.Basic
import ShirleysOS.Lib.Memory
import ShirleysOS.Lib.Bytes
import ShirleysOS.Memory.PageAllocator

/-!
# Page tables

An address space is a tree of tables in physical memory, four levels of 512 entries. The kernel
walks it through the identity mapping, so a table is read and written at its physical address.
The two architectures differ in the format of an entry only; the walk is written once, over a
`Format`, and each architecture is that walk with its own format. Invalidating the TLB is left
out. Source: `arch/x86_64/paging.cpp`, `arch/arm64/paging.cpp`,
`include/shirley/address_space.hpp`.
-/

namespace ShirleysOS.Paging

open Lib
open Memory (pageSize)

/-- `PageFlags`, one field for each bit. -/
structure PageFlags where
  read : Bool := false
  write : Bool := false
  execute : Bool := false
  user : Bool := false
  device : Bool := false
deriving DecidableEq, Repr

/-! ## Physical memory and its allocator -/

/-- An allocator of pages: `allocate_page`, which returns 0 when it fails, and `free_page`. -/
structure PageSource (α : Type) where
  allocatePage : α → ℕ × α
  freePage : ℕ → α → α

/-- Physical memory, and the state of the page allocator. -/
structure Machine (α : Type) where
  mem : Mem
  pages : α

def entriesPerTable : ℕ := 512

/-- `clear_table` and `zero_page`: 4096 bytes of zeros. -/
def clearPage (m : Mem) (page : ℕ) : Mem := Bytes.splice m page pageSize fun _ => 0

/-! ## Entries -/

/-- What an entry of a table means. -/
structure Format where
  present : ℕ → Bool
  /-- A huge page, or a block: the walk ends above the last level. -/
  large : ℕ → Bool
  /-- What `free_level` takes for a table of the next level. -/
  isTable : ℕ → Bool
  address : ℕ → ℕ
  tableEntry : ℕ → ℕ
  pageEntry : ℕ → PageFlags → ℕ

namespace X8664

def entryPresent : ℕ := 2 ^ 0
def entryWritable : ℕ := 2 ^ 1
def entryUser : ℕ := 2 ^ 2
def entryHuge : ℕ := 2 ^ 7
def entryNoExecute : ℕ := 2 ^ 63
def addressMask : ℕ := 0x000ffffffffff000

def translateFlags (nxSupported : Bool) (flags : PageFlags) : ℕ :=
  entryPresent ||| (if flags.write then entryWritable else 0) |||
    (if flags.user then entryUser else 0) |||
    (if !flags.execute && nxSupported then entryNoExecute else 0)

end X8664

open X8664 in
/-- The entries of x86_64; `nxSupported` is `cpu_nx_supported()`. -/
def x8664 (nxSupported : Bool) : Format where
  present entry := entry &&& entryPresent != 0
  large entry := entry &&& entryHuge != 0
  isTable entry := !(entry &&& entryPresent == 0 || entry &&& entryHuge != 0)
  address entry := entry &&& addressMask
  tableEntry page := (page &&& addressMask) ||| entryPresent ||| entryWritable ||| entryUser
  pageEntry physical flags := (physical &&& addressMask) ||| translateFlags nxSupported flags

namespace Arm64

def descriptorValid : ℕ := 2 ^ 0
def descriptorTable : ℕ := 3
def descriptorPage : ℕ := 3
def descriptorBlock : ℕ := 1
def descriptorTypeMask : ℕ := 3
def addressMask : ℕ := 0x0000fffffffff000
def attributeIndexNormal : ℕ := 2 ^ 2
def accessFlag : ℕ := 2 ^ 10
def innerShareable : ℕ := 3 * 2 ^ 8
def accessReadWriteEl1 : ℕ := 0
def accessReadWriteEl0 : ℕ := 1 * 2 ^ 6
def accessReadOnlyEl1 : ℕ := 2 * 2 ^ 6
def accessReadOnlyEl0 : ℕ := 3 * 2 ^ 6
def privilegedExecuteNever : ℕ := 2 ^ 53
def userExecuteNever : ℕ := 2 ^ 54

def translateFlags (flags : PageFlags) : ℕ :=
  let memoryAttribute := if flags.device then 0 else attributeIndexNormal
  let access :=
    if flags.user then (if flags.write then accessReadWriteEl0 else accessReadOnlyEl0)
    else (if flags.write then accessReadWriteEl1 else accessReadOnlyEl1)
  let never :=
    if !flags.execute then privilegedExecuteNever ||| userExecuteNever
    else if flags.user then privilegedExecuteNever else userExecuteNever
  descriptorPage ||| accessFlag ||| innerShareable ||| memoryAttribute ||| access ||| never

end Arm64

open Arm64 in
/-- The descriptors of arm64. -/
def arm64 : Format where
  present entry := entry &&& descriptorValid != 0
  large entry := entry &&& descriptorTypeMask == descriptorBlock
  isTable entry := entry &&& descriptorTypeMask == descriptorTable
  address entry := entry &&& addressMask
  tableEntry page := (page &&& addressMask) ||| descriptorTable
  pageEntry physical flags := (physical &&& addressMask) ||| translateFlags flags

/-! ## The walk -/

/-- `index_of`: level 3 is the root, level 0 the last. -/
def indexOf (address level : ℕ) : ℕ := address / 2 ^ (12 + 9 * level) % 512

/-- Where an entry of a table stands. -/
def slot (table index : ℕ) : ℕ := table + 8 * index

section Walk

variable {α : Type} (F : Format) (A : PageSource α)

/-- `descend`: the table of the next level, which is allocated when it is missing and `create` is
set. -/
def descend (create : Bool) (table index : ℕ) (s : Machine α) : Option ℕ × Machine α :=
  let entry := s.mem.load (slot table index)
  if !F.present entry then
    if !create then (none, s)
    else
      let allocated := A.allocatePage s.pages
      if allocated.1 = 0 then (none, { s with pages := allocated.2 })
      else
        let entry := F.tableEntry allocated.1
        (some (F.address entry),
          ⟨(clearPage s.mem allocated.1).store (slot table index) entry, allocated.2⟩)
  else if F.large entry then (none, s)
  else (some (F.address entry), s)

/-- The loop of `map` and `unmap` from `level` down to the last table. -/
def walk (create : Bool) (address : ℕ) : ℕ → ℕ → Machine α → Option ℕ × Machine α
  | 0, table, s => (some table, s)
  | level + 1, table, s =>
    match descend F A create table (indexOf address (level + 1)) s with
    | (none, s) => (none, s)
    | (some next, s) => walk create address level next s

/-- `PageTable::map`, with the table's `root_`. -/
def mapPage (root address physical : ℕ) (flags : PageFlags) (s : Machine α) : Bool × Machine α :=
  if root = 0 then (false, s)
  else if address % pageSize ≠ 0 ∨ physical % pageSize ≠ 0 then (false, s)
  else
    match walk F A true address 3 root s with
    | (none, s) => (false, s)
    | (some table, s) =>
      (true,
        { s with mem := s.mem.store (slot table (indexOf address 0)) (F.pageEntry physical flags) })

/-- `PageTable::unmap`. -/
def unmapPage (root address : ℕ) (s : Machine α) : Bool × Machine α :=
  if root = 0 ∨ address % pageSize ≠ 0 then (false, s)
  else
    match walk F A false address 3 root s with
    | (none, s) => (false, s)
    | (some table, s) =>
      if !F.present (s.mem.load (slot table (indexOf address 0))) then (false, s)
      else (true, { s with mem := s.mem.store (slot table (indexOf address 0)) 0 })

/-- The loop of `translate` from `level` on. -/
def translateFrom (m : Mem) (address : ℕ) : ℕ → ℕ → ℕ
  | 0, table =>
    let entry := m.load (slot table (indexOf address 0))
    if !F.present entry then 0 else F.address entry ||| address % pageSize
  | level + 1, table =>
    let entry := m.load (slot table (indexOf address (level + 1)))
    if !F.present entry then 0
    else if F.large entry then
      -- a page of this level: the offset is taken inside it
      let pageBytes := 2 ^ (12 + 9 * (level + 1))
      (F.address entry - F.address entry % pageBytes) ||| address % pageBytes
    else translateFrom m address level (F.address entry)

/-- `PageTable::translate`: 0 when nothing is mapped there. -/
def translate (m : Mem) (root address : ℕ) : ℕ :=
  if root = 0 then 0 else translateFrom F m address 3 root

/-- The hardware's check on x86_64 from `level` on: an address can be used from user mode when every
entry on its way is present and has the user bit. -/
def X8664.userFrom (m : Mem) (address : ℕ) : ℕ → ℕ → Bool
  | 0, table =>
    let entry := m.load (slot table (indexOf address 0))
    entry &&& entryPresent != 0 && entry &&& entryUser != 0
  | level + 1, table =>
    let entry := m.load (slot table (indexOf address (level + 1)))
    entry &&& entryPresent != 0 && entry &&& entryUser != 0 &&
      (entry &&& entryHuge != 0 || X8664.userFrom m address level (entry &&& addressMask))

/-- Whether an address can be used from user mode on x86_64. -/
def X8664.userAccessible (m : Mem) (root address : ℕ) : Bool := X8664.userFrom m address 3 root

/-- `PageTable::initialize` of a table that has no root yet: the new root, 0 when it fails. -/
def initializeTable (s : Machine α) : ℕ × Machine α :=
  let allocated := A.allocatePage s.pages
  if allocated.1 = 0 then (0, { s with pages := allocated.2 })
  else (allocated.1, ⟨clearPage s.mem allocated.1, allocated.2⟩)

/-- `free_level`: the tables at and below `level`, not the pages they map. -/
def freeLevel (m : Mem) : ℕ → ℕ → α → α
  | 0, physical, pages => A.freePage physical pages
  | level + 1, physical, pages =>
    A.freePage physical
      ((List.range entriesPerTable).foldl
        (fun pages i =>
          let entry := m.load (slot physical i)
          if F.isTable entry then freeLevel m level (F.address entry) pages else pages)
        pages)

/-- `PageTable::destroy`. -/
def destroy (root : ℕ) (s : Machine α) : Machine α :=
  if root = 0 then s else { s with pages := freeLevel F A s.mem 3 root s.pages }

end Walk

end ShirleysOS.Paging
