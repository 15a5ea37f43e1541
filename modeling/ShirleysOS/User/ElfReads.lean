import ShirleysOS.Lib.Guarded
import ShirleysOS.User.Elf

/-!
# Reads of the ELF64 reader

The functions of the reader once more, read by read: a read that leaves the buffer stops the run.
The offset of the table, the size of its entries and their number come from the image, and every
later read is at an offset made of them. None of them leaves the buffer, because the reader asks
first whether the whole table fits. Source: `boot/common/elf64.cpp`.
-/

namespace ShirleysOS.User

open Lib

section Reads

variable (image : Bytes) (size : ℕ)

/-- A number in the buffer. -/
def field (offset width : ℕ) : Guarded ℕ := within 0 size offset width (image.nat offset width)

/-- `identifier_ok`, which stops at the first byte that differs. -/
def identifierIn : Guarded Bool :=
  allOf (fun (i, b) => do return (← within 0 size i 1 (image i)) == b)
    [(0, 0x7f), (1, 0x45), (2, 0x4c), (3, 0x46), (4, 2), (5, 1), (6, 1)]

/-- `header_of`. -/
def headerIn (machine : ℕ) : Guarded Bool := do
  if size < Header.size then return false
  if !(← identifierIn image size) then return false
  if (← field image size 16 2) != typeExecutable then return false
  if (← field image size 18 2) != machine then return false
  if (← field image size 54 2) < ProgramHeader.size then return false
  if (← field image size 56 2) == 0 then return false
  return rangeOk (← field image size 32 8)
    ((← field image size 54 2) * (← field image size 56 2)) size

/-- `program_header_at`: where the program header is. -/
def programAt (index : ℕ) : Guarded ℕ := do
  return (← field image size 32 8) + index * (← field image size 54 2)

/-- One round of the loop of `elf64_valid`. -/
def programIn (index : ℕ) : Guarded Bool := do
  let program ← programAt image size index
  if (← field image size program 4) != programTypeLoad then return true
  if !rangeOk (← field image size (program + 8) 8) (← field image size (program + 32) 8) size then
    return false
  return (← field image size (program + 32) 8) ≤ (← field image size (program + 40) 8)

/-- `elf64_valid`; a null pointer is no buffer. -/
def validIn (buffer : Option Bytes) (size machine : ℕ) : Guarded Bool :=
  match buffer with
  | none => return false
  | some image => do
    if !(← headerIn image size machine) then return false
    allOf (programIn image size) (List.range (← field image size 56 2))

/-- The segment that a program header describes. -/
def segmentIn (program : ℕ) : Guarded Elf64Segment := do
  let flags ← field image size (program + 4) 4
  return {
    fileOffset := ← field image size (program + 8) 8
    fileSize := ← field image size (program + 32) 8
    physicalAddress := ← field image size (program + 24) 8
    virtualAddress := ← field image size (program + 16) 8
    memorySize := ← field image size (program + 40) 8
    readable := flags &&& flagReadable != 0
    writable := flags &&& flagWritable != 0
    executable := flags &&& flagExecutable != 0 }

/-- The loop of `elf64_segments`. -/
def collectIn (capacity : ℕ) : List ℕ → List Elf64Segment → Guarded (List Elf64Segment)
  | [], segments => return segments
  | i :: rest, segments => do
    if capacity ≤ segments.length then return segments
    let program ← programAt image size i
    if (← field image size program 4) != programTypeLoad then
      collectIn capacity rest segments
    else if (← field image size (program + 40) 8) == 0 then collectIn capacity rest segments
    else collectIn capacity rest (segments ++ [← segmentIn image size program])

end Reads

/-- `elf64_entry`. -/
def entryIn (buffer : Option Bytes) (size machine : ℕ) : Guarded ℕ := do
  if !(← validIn buffer size machine) then return 0
  match buffer with
  | none => return 0
  | some image => field image size 24 8

/-- `elf64_segments`; a null pointer is an array without room. -/
def segmentsIn (buffer : Option Bytes) (size machine capacity : ℕ) :
    Guarded (List Elf64Segment) := do
  if capacity = 0 then return []
  if !(← validIn buffer size machine) then return []
  match buffer with
  | none => return []
  | some image =>
    collectIn image size capacity (List.range (← field image size 56 2)) []

section Exact

variable {image : Bytes} {size machine : ℕ}

theorem field_ok {offset width : ℕ} (h : offset + width ≤ size) :
    field image size offset width = .ok (image.nat offset width) :=
  within_ok (Nat.zero_le _) h

theorem identifierIn_eq (h : Header.size ≤ size) :
    identifierIn image size = .ok (identifierOk image) := by
  have hsize : 64 ≤ size := h
  rw [identifierIn, @allOf_ok _ _ fun p => image p.1 == p.2]
  · simp [identifierOk, Bool.and_assoc]
  · rintro ⟨i, b⟩ hmem
    have hi : i < 7 := by
      simp only [List.mem_cons, Prod.mk.injEq, List.not_mem_nil, or_false] at hmem
      omega
    dsimp only
    rw [within_ok (Nat.zero_le i) (by omega)]
    rfl

theorem headerIn_eq : headerIn image size machine = .ok (headerOk image size machine) := by
  unfold headerIn headerOk
  split
  · next hsmall =>
    rw [decide_eq_false (Nat.not_le.mpr hsmall)]
    rfl
  · next hsize =>
    have h64 : 64 ≤ size := Nat.not_lt.mp hsize
    rw [identifierIn_eq h64, decide_eq_true (p := Header.size ≤ size) h64]
    simp only [field_ok (show 16 + 2 ≤ size by omega), field_ok (show 18 + 2 ≤ size by omega),
      field_ok (show 54 + 2 ≤ size by omega), field_ok (show 56 + 2 ≤ size by omega),
      field_ok (show 32 + 8 ≤ size by omega), guarded_ok_bind, ← Header.type.eq_1,
      ← Header.machine.eq_1, ← Header.programHeaderEntrySize.eq_1,
      ← Header.programHeaderCount.eq_1, ← Header.programHeaderOffset.eq_1]
    cases identifierOk image
    · rfl
    split_ifs with htype hmachine hentry hcount <;>
      simp_all [pure, Except.pure, Nat.not_le.mpr]

/-- The table of a header that can be used is inside the buffer. -/
theorem headerOk_bounds (h : headerOk image size machine = true) :
    64 ≤ size ∧ 56 ≤ Header.programHeaderEntrySize image ∧
      Header.programHeaderOffset image + Header.programHeaderEntrySize image *
        Header.programHeaderCount image ≤ size := by
  simp only [headerOk, rangeOk, Bool.and_eq_true, decide_eq_true_eq] at h
  obtain ⟨⟨⟨⟨⟨⟨hsize, -⟩, -⟩, -⟩, hentry⟩, -⟩, hoffset, htable⟩ := h
  exact ⟨hsize, hentry, by omega⟩

theorem program_bounds (h : headerOk image size machine = true) {i : ℕ}
    (hi : i < Header.programHeaderCount image) :
    Header.programHeaderOffset image + i * Header.programHeaderEntrySize image + 56 ≤ size := by
  obtain ⟨-, hentry, htable⟩ := headerOk_bounds h
  have hnext : (i + 1) * Header.programHeaderEntrySize image ≤
      Header.programHeaderEntrySize image * Header.programHeaderCount image := by
    rw [Nat.mul_comm]
    exact Nat.mul_le_mul_left _ hi
  rw [Nat.succ_mul] at hnext
  omega

theorem nat_programHeaderAt (i o w : ℕ) :
    (programHeaderAt image i).nat o w =
      image.nat (Header.programHeaderOffset image + i * Header.programHeaderEntrySize image + o)
        w :=
  Bytes.nat_congr fun j _ => by rw [programHeaderAt, Bytes.slice_apply, Nat.add_assoc _ o j]

theorem programAt_eq (h : 64 ≤ size) (i : ℕ) :
    programAt image size i = .ok (Header.programHeaderOffset image +
      i * Header.programHeaderEntrySize image) := by
  rw [programAt, field_ok (by omega), guarded_ok_bind, field_ok (by omega), guarded_ok_bind]
  rfl

theorem programIn_eq (h : headerOk image size machine = true) {i : ℕ}
    (hi : i < Header.programHeaderCount image) :
    programIn image size i = .ok (programOk (programHeaderAt image i) size) := by
  have hbounds := program_bounds h hi
  rw [programIn, programAt_eq (headerOk_bounds h).1, guarded_ok_bind]
  simp only [programOk, ProgramHeader.type, ProgramHeader.offset, ProgramHeader.fileSize,
    ProgramHeader.memorySize, nat_programHeaderAt, Nat.add_zero]
  generalize Header.programHeaderOffset image + i * Header.programHeaderEntrySize image = p at *
  rw [field_ok (by omega), field_ok (by omega), field_ok (by omega), field_ok (by omega)]
  simp only [guarded_ok_bind]
  split_ifs <;> simp_all [pure, Except.pure]

theorem validIn_eq : validIn (some image) size machine = .ok (elf64Valid image size machine) := by
  rw [validIn, headerIn_eq, guarded_ok_bind, elf64Valid]
  cases h : headerOk image size machine with
  | false => rfl
  | true =>
    have hsize := (headerOk_bounds h).1
    rw [field_ok (by omega), guarded_ok_bind, ← Header.programHeaderCount.eq_1]
    exact allOf_ok fun i hi => programIn_eq h (List.mem_range.mp hi)

theorem segmentIn_eq {i : ℕ} (hbounds : Header.programHeaderOffset image +
      i * Header.programHeaderEntrySize image + 56 ≤ size) :
    segmentIn image size (Header.programHeaderOffset image +
      i * Header.programHeaderEntrySize image) = .ok (segmentOf (programHeaderAt image i)) := by
  simp only [segmentOf, ProgramHeader.offset, ProgramHeader.fileSize, ProgramHeader.memorySize,
    ProgramHeader.virtualAddress, ProgramHeader.physicalAddress, ProgramHeader.flags,
    nat_programHeaderAt]
  generalize Header.programHeaderOffset image + i * Header.programHeaderEntrySize image = p at *
  rw [segmentIn, field_ok (by omega), field_ok (by omega), field_ok (by omega),
    field_ok (by omega), field_ok (by omega), field_ok (by omega)]
  rfl

theorem collectIn_eq (h : headerOk image size machine = true) (capacity : ℕ) :
    ∀ (indices : List ℕ) (segments : List Elf64Segment),
      (∀ i ∈ indices, i < Header.programHeaderCount image) →
      collectIn image size capacity indices segments =
        .ok (collectSegments image capacity indices segments) := by
  intro indices
  induction indices with
  | nil => exact fun _ _ => rfl
  | cons i rest ih =>
    intro segments hindices
    have hbounds := program_bounds h (hindices i List.mem_cons_self)
    have hrest := fun j hj => hindices j (List.mem_cons_of_mem i hj)
    rw [collectIn, collectSegments]
    split
    · rfl
    rw [programAt_eq (headerOk_bounds h).1, guarded_ok_bind, field_ok (by omega),
      field_ok (by omega), segmentIn_eq hbounds]
    simp only [guarded_ok_bind, ih _ hrest, isLoaded, ProgramHeader.type,
      ProgramHeader.memorySize, nat_programHeaderAt, Nat.add_zero]
    split_ifs <;> simp_all

/-- The segments of a valid image are inside the buffer, and no larger there than in memory. -/
theorem loadSegments_bounds (h : elf64Valid image size machine = true) :
    ∀ segment ∈ loadSegments image, segment.fileOffset + segment.fileSize ≤ size ∧
      segment.fileSize ≤ segment.memorySize := by
  intro segment hsegment
  simp only [loadSegments, List.mem_map, List.mem_filter, List.mem_range] at hsegment
  obtain ⟨program, ⟨⟨i, hi, rfl⟩, hload⟩, rfl⟩ := hsegment
  have hok := (List.all_eq_true.mp (Bool.and_eq_true_iff.mp h).2) i (List.mem_range.mpr hi)
  have htype := (Bool.and_eq_true_iff.mp hload).1
  simp only [programOk, rangeOk, Bool.or_eq_true, Bool.and_eq_true, decide_eq_true_eq,
    bne_iff_ne, ne_eq, beq_iff_eq] at hok htype
  obtain ⟨⟨hoffset, hsize⟩, hmemory⟩ := hok.resolve_left (not_not_intro htype)
  exact ⟨by change ProgramHeader.offset _ + ProgramHeader.fileSize _ ≤ size; omega, hmemory⟩

end Exact

/-- **The reader is exact.** No read leaves the buffer. A valid image gives its entry point and the
first of its segments that take up memory, as many as the array has room for, each inside the
buffer; any other gives nothing. -/
theorem elf64_exact (buffer : Option Bytes) (size machine capacity : ℕ) :
    let valid := buffer.any fun image => elf64Valid image size machine
    validIn buffer size machine = .ok valid ∧
      (valid = false → entryIn buffer size machine = .ok 0 ∧
        segmentsIn buffer size machine capacity = .ok []) ∧
      (valid = true → ∃ image, buffer = some image ∧
        entryIn buffer size machine = .ok (Header.entry image) ∧
        segmentsIn buffer size machine capacity = .ok ((loadSegments image).take capacity) ∧
        ∀ segment ∈ loadSegments image, segment.fileOffset + segment.fileSize ≤ size ∧
          segment.fileSize ≤ segment.memorySize) := by
  cases buffer with
  | none =>
    refine ⟨rfl, fun _ => ⟨rfl, ?_⟩, nofun⟩
    rw [segmentsIn]
    split <;> rfl
  | some image =>
    refine ⟨validIn_eq, fun (h : elf64Valid image size machine = false) => ?_,
      fun (h : elf64Valid image size machine = true) => ?_⟩
    · rw [entryIn, segmentsIn, validIn_eq, h]
      refine ⟨rfl, ?_⟩
      split <;> rfl
    · -- the header has passed, so its fields are inside of the buffer
      have hheader := (Bool.and_eq_true_iff.mp h).1
      have hsize := (headerOk_bounds hheader).1
      refine ⟨image, rfl, ?_, ?_, loadSegments_bounds h⟩
      · rw [entryIn, validIn_eq, h]
        exact field_ok (by omega)
      · rw [segmentsIn, validIn_eq, h, field_ok (by omega)]
        split
        · next hzero =>
          rw [hzero]
          rfl
        · refine (collectIn_eq hheader capacity _ _ fun i => List.mem_range.mp).trans ?_
          rw [collectSegments_eq _ _ _ _ (Nat.zero_le _)]
          rfl

/-- The image with two segments, read into an array with room for one. -/
theorem elf64_exact_bssImage :
    validIn (some bssImage) 179 62 = .ok true ∧ entryIn (some bssImage) 179 62 = .ok 0x1000 ∧
      segmentsIn (some bssImage) 179 62 1 = .ok [⟨176, 2, 0, 0x1000, 2, true, false, true⟩] := by
  have hvalid : elf64Valid bssImage 179 62 = true := by decide +kernel
  have hentry : Header.entry bssImage = 0x1000 := by decide +kernel
  obtain ⟨hread, -, hgives⟩ := elf64_exact (some bssImage) 179 62 1
  obtain ⟨image, himage, hentryIn, hsegmentsIn, -⟩ := hgives hvalid
  obtain rfl := Option.some.inj himage
  rw [loadSegments_bssImage] at hsegmentsIn
  exact ⟨hread.trans (congrArg Except.ok hvalid), hentryIn.trans (congrArg Except.ok hentry),
    hsegmentsIn⟩

end ShirleysOS.User
