import Mathlib.Data.List.Basic
import ShirleysOS.Lib.Bytes

/-!
# The ELF64 reader

The image comes from disk, so the reader checks every range before it uses it. The loader asks it
for the entry point and for the segments to load. Source: `boot/common/elf64.cpp`.
-/

namespace ShirleysOS.User

open Lib

/-! ## Headers -/

namespace Header

/-- `sizeof(Header)`. -/
def size : ℕ := 64

def type (image : Bytes) : ℕ := image.nat 16 2
def machine (image : Bytes) : ℕ := image.nat 18 2
def entry (image : Bytes) : ℕ := image.nat 24 8
def programHeaderOffset (image : Bytes) : ℕ := image.nat 32 8
def programHeaderEntrySize (image : Bytes) : ℕ := image.nat 54 2
def programHeaderCount (image : Bytes) : ℕ := image.nat 56 2

end Header

namespace ProgramHeader

/-- `sizeof(ProgramHeader)`. -/
def size : ℕ := 56

def type (program : Bytes) : ℕ := program.nat 0 4
def flags (program : Bytes) : ℕ := program.nat 4 4
def offset (program : Bytes) : ℕ := program.nat 8 8
def virtualAddress (program : Bytes) : ℕ := program.nat 16 8
def physicalAddress (program : Bytes) : ℕ := program.nat 24 8
def fileSize (program : Bytes) : ℕ := program.nat 32 8
def memorySize (program : Bytes) : ℕ := program.nat 40 8

end ProgramHeader

def programTypeLoad : ℕ := 1
def flagExecutable : ℕ := 2 ^ 0
def flagWritable : ℕ := 2 ^ 1
def flagReadable : ℕ := 2 ^ 2
def typeExecutable : ℕ := 2

/-- `elf_machine_x86_64`. -/
def elfMachineX8664 : ℕ := 62

/-- `elf_machine_aarch64`. -/
def elfMachineAarch64 : ℕ := 183

/-- `Elf64Segment`. -/
structure Elf64Segment where
  fileOffset : ℕ
  fileSize : ℕ
  physicalAddress : ℕ
  virtualAddress : ℕ
  memorySize : ℕ
  readable : Bool
  writable : Bool
  executable : Bool
deriving DecidableEq, Repr

/-! ## The reader -/

/-- `identifier_ok`: the magic number, 64 bits, little-endian, the current version. -/
def identifierOk (image : Bytes) : Bool :=
  image 0 == 0x7f && image 1 == 0x45 && image 2 == 0x4c && image 3 == 0x46 && image 4 == 2 &&
    image 5 == 1 && image 6 == 1

/-- `range_ok`. -/
def rangeOk (offset length size : ℕ) : Bool := offset ≤ size && length ≤ size - offset

/-- `header_of`: whether the header can be used. -/
def headerOk (image : Bytes) (size machine : ℕ) : Bool :=
  Header.size ≤ size && identifierOk image && Header.type image == typeExecutable &&
    Header.machine image == machine &&
    ProgramHeader.size ≤ Header.programHeaderEntrySize image &&
    Header.programHeaderCount image != 0 &&
    rangeOk (Header.programHeaderOffset image)
      (Header.programHeaderEntrySize image * Header.programHeaderCount image) size

/-- `program_header_at`. -/
def programHeaderAt (image : Bytes) (index : ℕ) : Bytes :=
  image.slice (Header.programHeaderOffset image + index * Header.programHeaderEntrySize image)

/-- What `elf64_valid` asks of one program header. -/
def programOk (program : Bytes) (size : ℕ) : Bool :=
  ProgramHeader.type program != programTypeLoad ||
    rangeOk (ProgramHeader.offset program) (ProgramHeader.fileSize program) size &&
      ProgramHeader.fileSize program ≤ ProgramHeader.memorySize program

def elf64Valid (image : Bytes) (size machine : ℕ) : Bool :=
  headerOk image size machine &&
    (List.range (Header.programHeaderCount image)).all fun i =>
      programOk (programHeaderAt image i) size

def elf64Entry (image : Bytes) (size machine : ℕ) : ℕ :=
  if elf64Valid image size machine then Header.entry image else 0

/-- The segment that a program header describes. -/
def segmentOf (program : Bytes) : Elf64Segment where
  fileOffset := ProgramHeader.offset program
  fileSize := ProgramHeader.fileSize program
  physicalAddress := ProgramHeader.physicalAddress program
  virtualAddress := ProgramHeader.virtualAddress program
  memorySize := ProgramHeader.memorySize program
  readable := ProgramHeader.flags program &&& flagReadable != 0
  writable := ProgramHeader.flags program &&& flagWritable != 0
  executable := ProgramHeader.flags program &&& flagExecutable != 0

/-- Whether a program header describes a segment to load that takes up memory. -/
def isLoaded (program : Bytes) : Bool :=
  ProgramHeader.type program == programTypeLoad && ProgramHeader.memorySize program != 0

/-- The loop of `elf64_segments`: `segments` are those found so far. -/
def collectSegments (image : Bytes) (capacity : ℕ) :
    List ℕ → List Elf64Segment → List Elf64Segment
  | [], segments => segments
  | i :: rest, segments =>
    if capacity ≤ segments.length then segments
    else if isLoaded (programHeaderAt image i) then
      collectSegments image capacity rest (segments ++ [segmentOf (programHeaderAt image i)])
    else collectSegments image capacity rest segments

def elf64Segments (image : Bytes) (size machine capacity : ℕ) : List Elf64Segment :=
  if elf64Valid image size machine then
    collectSegments image capacity (List.range (Header.programHeaderCount image)) []
  else []

/-! ## What the reader finds -/

/-- Every segment to load that takes up memory, in the order of the program headers. -/
def loadSegments (image : Bytes) : List Elf64Segment :=
  (((List.range (Header.programHeaderCount image)).map (programHeaderAt image)).filter
    isLoaded).map segmentOf

theorem collectSegments_eq (image : Bytes) (capacity : ℕ) (indices : List ℕ)
    (segments : List Elf64Segment) (h : segments.length ≤ capacity) :
    collectSegments image capacity indices segments =
      (segments ++ ((indices.map (programHeaderAt image)).filter isLoaded).map segmentOf).take
        capacity := by
  induction indices generalizing segments with
  | nil => simp [collectSegments, List.take_of_length_le h]
  | cons i rest ih =>
    rw [collectSegments]
    split
    · -- the array is full: nothing more fits
      rename_i hfull
      rw [List.take_append_of_le_length hfull, List.take_of_length_le h]
    · split
      · rename_i hfull hload
        rw [ih _ (by rw [List.length_append, List.length_singleton]; omega)]
        simp [hload]
      · rename_i hfull hload
        rw [ih _ h]
        simp [hload]

/-- The reader lists the segments of a valid image, as many as the array has room for. -/
theorem elf64Segments_eq (image : Bytes) (size machine capacity : ℕ) :
    elf64Segments image size machine capacity =
      if elf64Valid image size machine then (loadSegments image).take capacity else [] := by
  rw [elf64Segments, collectSegments_eq _ _ _ _ (Nat.zero_le _)]
  rfl

/-- When the array is not filled, no segment is left out. -/
theorem elf64Segments_eq_loadSegments {image : Bytes} {size machine capacity : ℕ}
    (hne : (elf64Segments image size machine capacity).length ≠ 0)
    (hroom : (elf64Segments image size machine capacity).length ≠ capacity) :
    elf64Segments image size machine capacity = loadSegments image := by
  rw [elf64Segments_eq] at hne hroom ⊢
  split at hne
  · rename_i hvalid
    rw [if_pos hvalid] at hroom ⊢
    rw [List.length_take] at hroom
    exact List.take_of_length_le (by omega)
  · exact absurd rfl hne

/-! ## An image -/

/-- An image with two segments: two bytes of code at `0x1000`, and at `0x2000` a byte of data with
two zeros behind it. -/
def bssImage : Bytes :=
  Bytes.ofTable ([(0, 0x7f), (1, 0x45), (2, 0x4c), (3, 0x46), (4, 2), (5, 1), (6, 1), (16, 2)] ++
    [(18, 62), (20, 1), (25, 0x10), (32, 64), (52, 64), (54, 56), (56, 2)] ++
    [(64, 1), (68, 5), (72, 176), (81, 0x10), (96, 2), (104, 2)] ++
    [(120, 1), (124, 6), (128, 178), (137, 0x20), (152, 1), (160, 3)] ++
    [(176, 0x5a), (177, 0x5b), (178, 0x5c)])

theorem loadSegments_bssImage :
    loadSegments bssImage =
      [⟨176, 2, 0, 0x1000, 2, true, false, true⟩, ⟨178, 1, 0, 0x2000, 3, true, true, false⟩] := by
  decide +kernel

end ShirleysOS.User
