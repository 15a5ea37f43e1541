import ShirleysOS.Boot.DeviceTree
import ShirleysOS.Memory.MemoryMap

/-!
# The boot hand-off on QEMU arm64

`shirley_platform_boot_info` turns the device tree the firmware left in memory into the memory
map the page allocator starts from. The regions of the tree are written first, into a table of
32, and the kernel image and the tree itself after them. The last two keep the kernel and the
tree from being handed out, but `append` drops them without a word when the tree has filled the
table. Source: `platform/qemu_arm64/boot_protocol.cpp`.
-/

namespace ShirleysOS.Boot

open Memory

def fallbackRamBase : ℕ := 0x40000000
def fallbackRamSize : ℕ := 128 * 1024 * 1024

/-- The capacity of the table of regions. -/
def maxRegions : ℕ := 32

/-- Where the linker put the kernel image. -/
structure KernelImage where
  start : UInt64
  stop : UInt64
deriving DecidableEq, Repr

/-- The regions of the device tree, or of the default machine when it has none. -/
def machineRegions (regions : List BootMemoryRegion) : List BootMemoryRegion :=
  if regions.length = 0 then (append regions maxRegions fallbackRamBase fallbackRamSize .usable).2
  else regions

/-- `shirley_platform_boot_info`; nothing is returned when the walk over the tree does not end. -/
def shirleyPlatformBootInfo (fuel : ℕ) (mem : ℕ → UInt8) (kernel : KernelImage)
    (firmwareTable : UInt64) : Option BootInfo :=
  let hasDeviceTree := fdtValid mem firmwareTable.toNat
  let map := if hasDeviceTree then fdtMemoryMap fuel mem firmwareTable.toNat maxRegions else some []
  map.map fun regions =>
    let regions := (append (machineRegions regions) maxRegions kernel.start.toNat
      (kernel.stop - kernel.start).toNat .reserved).2
    let regions :=
      if hasDeviceTree then
        (append regions maxRegions firmwareTable.toNat
          (fdtTotalSize mem firmwareTable.toNat) .firmware).2
      else regions
    { version := currentVersion
      memoryRegions := some regions
      memoryRegionCount := UInt64.ofNat regions.length }

/-- No byte of the page at `page` belongs to the kernel image or to the `size` bytes of the
device tree. -/
def Protected (kernel : KernelImage) (firmwareTable : UInt64) (size page : ℕ) : Prop :=
  ∀ a, page ≤ a → a < page + pageSize →
    ¬ (kernel.start.toNat ≤ a ∧ a < kernel.stop.toNat) ∧
    ¬ (firmwareTable.toNat ≤ a ∧ a < firmwareTable.toNat + size)

/-- The device tree lists at most `n` regions, however large the table it is read into. -/
def ListsAtMost (mem : ℕ → UInt8) (blob n : ℕ) : Prop :=
  ∀ fuel capacity regions, fdtMemoryMap fuel mem blob capacity = some regions → regions.length ≤ n

/-! ## The two regions that are appended last -/

theorem append_eq {regions : List BootMemoryRegion} {capacity start length : ℕ}
    (type : MemoryType) (hlength : length ≠ 0) (hroom : regions.length < capacity) :
    (append regions capacity start length type).2 =
      regions ++ [⟨UInt64.ofNat start, UInt64.ofNat length, type⟩] := by
  rw [append, if_neg (by omega)]

theorem append_subset (regions : List BootMemoryRegion) (capacity start length : ℕ)
    (type : MemoryType) : regions ⊆ (append regions capacity start length type).2 := by
  rw [append]
  split_ifs
  · exact List.Subset.refl _
  · exact List.subset_append_left _ _

theorem append_length (regions : List BootMemoryRegion) (capacity start length : ℕ)
    (type : MemoryType) : (append regions capacity start length type).2.length ≤
      regions.length + 1 := by
  rw [append]
  split_ifs
  · exact Nat.le_succ _
  · simp

theorem machineRegions_length {regions : List BootMemoryRegion} (h : regions.length ≤ 30) :
    (machineRegions regions).length ≤ 30 := by
  rw [machineRegions]
  split_ifs with hzero
  · exact (append_length _ _ _ _ _).trans (by omega)
  · exact h

variable {fuel : ℕ} {mem : ℕ → UInt8} {kernel : KernelImage} {firmwareTable : UInt64}
  {info : BootInfo}

/-- With room for two more, the memory map lists the kernel image and the device tree. -/
theorem mem_bootInfo_regions (hvalid : fdtValid mem firmwareTable.toNat = true)
    (hlisted : ListsAtMost mem firmwareTable.toNat 30)
    (hinfo : shirleyPlatformBootInfo fuel mem kernel firmwareTable = some info) :
    (kernel.stop - kernel.start ≠ 0 →
      ⟨kernel.start, kernel.stop - kernel.start, .reserved⟩ ∈ info.regions) ∧
    (fdtTotalSize mem firmwareTable.toNat ≠ 0 →
      ⟨firmwareTable, UInt64.ofNat (fdtTotalSize mem firmwareTable.toNat), .firmware⟩ ∈
        info.regions) := by
  simp only [shirleyPlatformBootInfo, hvalid, if_true, Option.map_eq_some_iff] at hinfo
  obtain ⟨listed, hmap, rfl⟩ := hinfo
  have hlen := machineRegions_length (hlisted _ _ _ hmap)
  set withKernel := (append (machineRegions listed) maxRegions kernel.start.toNat
    (kernel.stop - kernel.start).toNat .reserved).2 with hk
  have hlen' : withKernel.length ≤ 31 := (append_length _ _ _ _ _).trans (by omega)
  set all := (append withKernel maxRegions firmwareTable.toNat
    (fdtTotalSize mem firmwareTable.toNat) .firmware).2 with hall
  have hlenAll : all.length ≤ 32 := (append_length _ _ _ _ _).trans (by omega)
  -- the count is the length of the list, so `initialize` walks over all of it
  have hregions : BootInfo.regions ⟨currentVersion, some all, UInt64.ofNat all.length⟩ = all := by
    simp only [BootInfo.regions, Option.getD_some, UInt64.toNat_ofNat']
    rw [Nat.mod_eq_of_lt (by omega), List.take_length]
  rw [hregions]
  refine ⟨fun hne => ?_, fun hne => ?_⟩
  · refine append_subset _ _ _ _ _ ?_
    have hne' : (kernel.stop - kernel.start).toNat ≠ 0 := fun h =>
      hne (UInt64.toNat_inj.mp (by simpa using h))
    rw [hk, append_eq _ hne' (by simp only [maxRegions]; omega)]
    simp
  · rw [hall, append_eq _ hne (by simp only [maxRegions]; omega)]
    simp

/-- **The kernel image and the device tree are kept.** When the tree lists at most 30 regions
and the insertions of the run are safe, a page that `allocate_page` returns in any state reached
is protected; with no free extent it returns the sentinel. -/
theorem run_protected (fuel : ℕ) (mem : ℕ → UInt8) (kernel : KernelImage) (firmwareTable : UInt64)
    (info : BootInfo) (s : State) (calls : List Call)
    (hvalid : fdtValid mem firmwareTable.toNat = true)
    (hend : firmwareTable.toNat + fdtTotalSize mem firmwareTable.toNat < wordSize)
    (hlisted : ListsAtMost mem firmwareTable.toNat 30)
    (hinfo : shirleyPlatformBootInfo fuel mem kernel firmwareTable = some info)
    (hsafe : RunSafe info s calls) (before : List Call) (hpre : before <+: calls) :
    if (run info s before).state.freeExtents.count = 0
    then (allocatePage (run info s before).state).1 = 0
    else Protected kernel firmwareTable (fdtTotalSize mem firmwareTable.toNat)
      (allocatePage (run info s before).state).1 := by
  obtain ⟨hkernel, htree⟩ := mem_bootInfo_regions hvalid hlisted hinfo
  split_ifs with hcount
  · simp [allocatePage, hcount]
  · have hpage := run_page_mem_managed hsafe hpre hcount
    intro a h₁ h₂
    have hout := (byte_of_mem_managed hsafe.1 hpage h₁ h₂).2
    -- both are among the reserved regions of the boot information
    refine ⟨fun hin => ?_, fun hin => ?_⟩
    · have hstop := kernel.stop.toNat_lt
      have hsub : (kernel.stop - kernel.start).toNat = kernel.stop.toNat - kernel.start.toNat :=
        UInt64.toNat_sub_of_le _ _ (UInt64.le_iff_toNat_le.mpr (by omega))
      refine hout _ (hkernel fun hzero => ?_) (by simp) ?_ ⟨hin.1, ?_⟩
      · rw [hzero] at hsub
        simp only [UInt64.toNat_zero] at hsub
        omega
      · simp only [hsub, wordSize]
        omega
      · simp only [hsub]
        omega
    · have hsize : (UInt64.ofNat (fdtTotalSize mem firmwareTable.toNat)).toNat =
          fdtTotalSize mem firmwareTable.toNat := by
        rw [UInt64.toNat_ofNat']
        exact Nat.mod_eq_of_lt (by simp only [wordSize] at hend; omega)
      exact hout _ (htree (by omega)) (by simp) (by simp only [hsize]; exact hend)
        ⟨hin.1, by simp only [hsize]; exact hin.2⟩

/-! ### Two device trees -/

/-- The header of a tree whose blocks are all empty. -/
def bareTree : ℕ → UInt8 :=
  wordsAt 0x48000000 [fdtMagic, 40, 40, 40, 40, 17, 16, 0, 0, 0]

/-- An image of one mebibyte at the address the linker script gives. -/
def sampleKernel : KernelImage := ⟨0x40080000, 0x40180000⟩

theorem listsAtMost_bareTree : ListsAtMost bareTree 0x48000000 30 := by
  intro fuel capacity regions h
  have hheader : readHeader bareTree 0x48000000 = ⟨fdtMagic, 40, 40, 40, 40, 0, 0⟩ := by
    decide +kernel
  have hstop : walkStep bareTree 0x48000000 ⟨fdtMagic, 40, 40, 40, 40, 0, 0⟩ capacity {} =
      (false, {}) := if_neg (by decide)
  rw [fdtMemoryMap, hheader] at h
  cases fuel with
  | zero =>
    simp only [walkLoop] at h
    split_ifs at h <;> cases h <;> simp
  | succ fuel =>
    have hend : ¬ ((40 + 16) % word32 ≤ 40 ∧ ([] : List BootMemoryRegion).length < capacity) :=
      fun hc => absurd hc.1 (by decide)
    simp only [walkLoop, hstop, readReservations, if_neg hend] at h
    split_ifs at h <;> cases h <;> simp

/-- The tree without a memory node, with which the default machine is used. -/
theorem run_protected_bareTree :
    ∃ info, shirleyPlatformBootInfo 2 bareTree sampleKernel 0x48000000 = some info ∧
      Protected sampleKernel 0x48000000 40
        (allocatePage (run info blankState [.allocatePage, .freePage 0x40000000]).state).1 := by
  refine ⟨⟨currentVersion, some [⟨0x40000000, 0x8000000, .usable⟩,
    ⟨0x40080000, 0x100000, .reserved⟩, ⟨0x48000000, 40, .firmware⟩], 3⟩, by decide +kernel, ?_⟩
  have hsize : fdtTotalSize bareTree (0x48000000 : UInt64).toNat = 40 := by decide +kernel
  have h := run_protected 2 bareTree sampleKernel 0x48000000 ⟨currentVersion,
    some [⟨0x40000000, 0x8000000, .usable⟩, ⟨0x40080000, 0x100000, .reserved⟩,
      ⟨0x48000000, 40, .firmware⟩], 3⟩ blankState [.allocatePage, .freePage 0x40000000]
    (by decide +kernel) (by decide +kernel) listsAtMost_bareTree (by decide +kernel)
    ⟨Or.inr (by decide +kernel), by decide +kernel⟩ _ (List.prefix_refl _)
  rwa [if_neg (by decide +kernel), hsize] at h

/-- A tree with one bank of memory, from `0x40000000` on, and 31 reservations: the part of the
bank below the kernel, and 30 times the page at `0x1000`. -/
def fullTree : ℕ → UInt8 :=
  wordsAt 0x48000000 ([fdtMagic, 600, 536, 596, 40, 17, 16, 0, 4, 60] ++
    [0, 0x40000000, 0, 0x80000] ++ (List.replicate 30 [0, 0x1000, 0, 1]).flatten ++
    [tokenBeginNode, 0, tokenBeginNode, 0x6d656d6f, 0x72790000, tokenProperty, 16, 0,
      0, 0x40000000, 0, 0x8000000, tokenEndNode, tokenEndNode, tokenEnd] ++ [0x72656700])

/-- The memory map for it: the 32 regions of the tree. -/
def fullInfo : BootInfo :=
  ⟨currentVersion, some (⟨0x40000000, 0x8000000, .usable⟩ :: ⟨0x40000000, 0x80000, .reserved⟩ ::
    List.replicate 30 ⟨0x1000, 1, .reserved⟩), 32⟩

/-- **A page of the kernel is allocated**: the tree fills the table, the kernel image is not
listed, and the first page returned is its first. -/
theorem kernel_page_allocated :
    fdtValid fullTree 0x48000000 = true ∧
    0x48000000 + fdtTotalSize fullTree 0x48000000 < wordSize ∧
    shirleyPlatformBootInfo 33 fullTree sampleKernel 0x48000000 = some fullInfo ∧
    (run fullInfo blankState []).state.freeExtents.count ≠ 0 ∧
    ¬ Protected sampleKernel 0x48000000 (fdtTotalSize fullTree 0x48000000)
      (allocatePage (run fullInfo blankState []).state).1 := by
  refine ⟨by decide +kernel, by decide +kernel, by decide +kernel, by decide +kernel, fun h => ?_⟩
  have hpage : (allocatePage (run fullInfo blankState []).state).1 = 0x40080000 := by
    decide +kernel
  rw [hpage] at h
  exact (h 0x40080000 le_rfl (by simp [pageSize])).1 (by decide)

end ShirleysOS.Boot
