import Mathlib.Tactic.IntervalCases
import ShirleysOS.Boot.DeviceTree
import ShirleysOS.Lib.Guarded

/-!
# Reads of the device tree

`fdt_memory_map` once more, read by read: a read outside the blob stops the run. The walk over the
structure block stays inside on every blob with a sane header. Its sums of 32 bits could wrap only
in a block of almost 4 GiB; such a block begins inside the header, and its first token is none.

The reservation block has no such check. Its offset may be anything, and an offset in the last 16
bytes of the 32-bit range passes the test of the loop, because the sum wraps.
Source: `platform/firmware/fdt.cpp`.
-/

namespace ShirleysOS.Boot

open Lib Memory

section Reading

variable (mem : ℕ → UInt8) (blob size : ℕ)

/-- One byte. -/
def byteIn (source : ℕ) : Guarded UInt8 := within blob (blob + size) source 1 (mem source)

/-- `read_be32`. -/
def be32In (source : ℕ) : Guarded ℕ := within blob (blob + size) source 4 (readBe32 mem source)

/-- `read_be64`. -/
def be64In (source : ℕ) : Guarded ℕ := within blob (blob + size) source 8 (readBe64 mem source)

def startsWithIn (name available : ℕ) : List UInt8 → ℕ → Guarded Bool
  | [], _ => return true
  | c :: expected, i => do
    if i ≥ available then return false
    if (← byteIn mem blob size (name + i)) ≠ c then return false
    startsWithIn name available expected (i + 1)

/-- `node_name_is`. -/
def nodeNameIsIn (name : ℕ) (expected : List UInt8) (available : ℕ) : Guarded Bool := do
  if !(← startsWithIn mem blob size name available expected 0) then return false
  if expected.length ≥ available then return true
  let last ← byteIn mem blob size (name + expected.length)
  return last == 0 || last == UInt8.ofNat '@'.toNat

/-- `string_equals`. -/
def stringEqualsIn (left : ℕ) (right : List UInt8) (available : ℕ) : Guarded Bool := do
  if !(← startsWithIn mem blob size left available right 0) then return false
  if right.length ≥ available then return false
  return (← byteIn mem blob size (left + right.length)) == 0

/-- `read_cells`. -/
def readCellsIn (data cells : ℕ) : Guarded ℕ :=
  if cells = 1 then be32In mem blob size data
  else if cells = 2 then be64In mem blob size data
  else return 0

variable (header : Header) (capacity : ℕ)

def nameLengthIn (offset : ℕ) : ℕ → ℕ → Guarded ℕ
  | 0, _ => throw .exhausted
  | fuel + 1, length => do
    if offset + length < header.structSize then
      if (← byteIn mem blob size (blob + header.structOffset + offset + length)) ≠ 0 then
        nameLengthIn offset fuel (length + 1)
      else return length
    else return length

def regLoopIn (data length addressCells sizeCells : ℕ) : ℕ → ℕ → List BootMemoryRegion →
    Guarded (List BootMemoryRegion)
  | 0, _, _ => throw .exhausted
  | fuel + 1, position, regions => do
    let stride := (addressCells + sizeCells) * 4
    if (position + stride) % word32 ≤ length then
      let base ← readCellsIn mem blob size (data + position) addressCells
      let bank ← readCellsIn mem blob size (data + position + addressCells * 4) sizeCells
      match append regions capacity base bank .usable with
      | (true, regions) =>
        regLoopIn data length addressCells sizeCells fuel ((position + stride) % word32) regions
      | (false, regions) => return regions
    else return regions

def readPropertyIn (w : Walk) (data length name available : ℕ) : Guarded Walk := do
  if w.depth = 1 ∧ length = 4 then
    if ← stringEqualsIn mem blob size name (literal "#address-cells".toList) available then
      return { w with addressCells := ← be32In mem blob size data }
    else if ← stringEqualsIn mem blob size name (literal "#size-cells".toList) available then
      return { w with sizeCells := ← be32In mem blob size data }
    else return w
  else if w.inMemoryNode then
    if ← stringEqualsIn mem blob size name (literal "reg".toList) available then
      if (w.addressCells + w.sizeCells) * 4 % word32 ≠ 0 ∧ w.addressCells ≤ 2 ∧
          w.sizeCells ≤ 2 then
        return { w with
          regions := ← regLoopIn mem blob size capacity data length w.addressCells w.sizeCells
            (capacity - w.regions.length + 1) 0 w.regions }
      else return w
    else return w
  else return w

def beginNodeIn (w : Walk) : Guarded (Bool × Walk) := do
  let length ← nameLengthIn mem blob size header w.offset (header.structSize - w.offset + 1) 0
  if w.offset + length ≥ header.structSize then return (false, w)
  let depth := (w.depth + 1) % word32
  let offset := (w.offset + align4 (length + 1)) % word32
  if !w.inMemoryNode ∧ depth = 2 then
    if ← nodeNameIsIn mem blob size (blob + header.structOffset + w.offset)
        (literal "memory".toList) length then
      return (true, { w with depth, offset, inMemoryNode := true, memoryDepth := depth })
    else return (true, { w with depth, offset })
  else return (true, { w with depth, offset })

def propertyIn (w : Walk) : Guarded (Bool × Walk) := do
  if (w.offset + 8) % word32 > header.structSize then return (false, w)
  let length ← be32In mem blob size (blob + header.structOffset + w.offset)
  let nameOffset ← be32In mem blob size (blob + header.structOffset + w.offset + 4)
  let offset := (w.offset + 8) % word32
  if length > header.structSize - offset ∨ nameOffset ≥ header.stringsSize then return (false, w)
  let w ← readPropertyIn mem blob size capacity w (blob + header.structOffset + offset) length
    (blob + header.stringsOffset + nameOffset) (header.stringsSize - nameOffset)
  return (true, { w with offset := (offset + align4 length) % word32 })

def walkStepIn (w : Walk) : Guarded (Bool × Walk) := do
  if (w.offset + 4) % word32 ≤ header.structSize then
    let token ← be32In mem blob size (blob + header.structOffset + w.offset)
    let w := { w with offset := (w.offset + 4) % word32 }
    if token = tokenEnd then return (false, w)
    else if token = tokenNop then return (true, w)
    else if token = tokenBeginNode then beginNodeIn mem blob size header w
    else if token = tokenEndNode then return endNode w
    else if token = tokenProperty then propertyIn mem blob size header capacity w
    else return (false, w)
  else return (false, w)

def walkLoopIn : ℕ → Walk → Guarded Walk
  | 0, _ => throw .exhausted
  | fuel + 1, w => do
    match ← walkStepIn mem blob size header capacity w with
    | (true, w) => walkLoopIn fuel w
    | (false, w) => return w

/-- `read_reservations`. -/
def readReservationsIn : ℕ → ℕ → List BootMemoryRegion → Guarded (List BootMemoryRegion)
  | 0, _, _ => throw .exhausted
  | fuel + 1, offset, regions => do
    if (offset + 16) % word32 ≤ header.totalSize ∧ regions.length < capacity then
      let address ← be64In mem blob size (blob + offset)
      let length ← be64In mem blob size (blob + offset + 8)
      if address = 0 ∧ length = 0 then return regions
      readReservationsIn fuel ((offset + 16) % word32)
        (append regions capacity address length .reserved).2
    else return regions

end Reading

/-- `fdt_memory_map` on a blob of `size` bytes, with a table of `capacity` regions. -/
def memoryMapIn (fuel : ℕ) (mem : ℕ → UInt8) (blob size capacity : ℕ) :
    Guarded (List BootMemoryRegion) := do
  if blob = 0 ∨ capacity = 0 then return []
  let header ← within blob (blob + size) blob 40 (readHeader mem blob)
  if !headerIsSane header then return []
  let w ← walkLoopIn mem blob size header capacity fuel {}
  readReservationsIn mem blob size header capacity fuel header.reservationOffset w.regions

/-! ## The structure block -/

variable {name available data : ℕ} {w : Walk}

section Walking

variable {mem : ℕ → UInt8} {blob size : ℕ} {header : Header} {capacity a : ℕ}

theorem byteIn_ok (hlow : blob ≤ a) (hhigh : a + 1 ≤ blob + size) :
    byteIn mem blob size a = .ok (mem a) :=
  within_ok hlow hhigh

theorem be32In_ok (hlow : blob ≤ a) (hhigh : a + 4 ≤ blob + size) :
    be32In mem blob size a = .ok (readBe32 mem a) :=
  within_ok hlow hhigh

theorem be64In_ok (hlow : blob ≤ a) (hhigh : a + 8 ≤ blob + size) :
    be64In mem blob size a = .ok (readBe64 mem a) :=
  within_ok hlow hhigh

theorem startsWithIn_ok (hlow : blob ≤ name) (hhigh : name + available ≤ blob + size) :
    ∀ (expected : List UInt8) (i : ℕ), startsWithIn mem blob size name available expected i =
      .ok (startsWith mem name available expected i)
  | [], _ => rfl
  | c :: expected, i => by
    rw [startsWithIn, startsWith]
    by_cases hi : i ≥ available
    · rw [if_pos hi, if_pos (.inl hi)]
      rfl
    · rw [if_neg hi, byteIn_ok (by omega) (by omega), guarded_ok_bind,
        startsWithIn_ok hlow hhigh expected (i + 1)]
      by_cases hc : mem (name + i) = c <;> simp [hc, hi, pure, Except.pure]

theorem nodeNameIsIn_ok (hlow : blob ≤ name) (hhigh : name + available ≤ blob + size)
    (expected : List UInt8) :
    nodeNameIsIn mem blob size name expected available =
      .ok (nodeNameIs mem name expected available) := by
  rw [nodeNameIsIn, nodeNameIs, startsWithIn_ok hlow hhigh, guarded_ok_bind]
  by_cases hlong : expected.length ≥ available
  · cases startsWith mem name available expected 0 <;> simp [hlong, pure, Except.pure]
  · rw [byteIn_ok (by omega) (by omega)]
    cases startsWith mem name available expected 0 <;> simp [hlong, pure, Except.pure]

theorem stringEqualsIn_ok (hlow : blob ≤ name) (hhigh : name + available ≤ blob + size)
    (right : List UInt8) :
    stringEqualsIn mem blob size name right available =
      .ok (stringEquals mem name right available) := by
  rw [stringEqualsIn, stringEquals, startsWithIn_ok hlow hhigh, guarded_ok_bind]
  by_cases hlong : right.length ≥ available
  · cases startsWith mem name available right 0 <;>
      simp [hlong, Nat.not_lt.mpr hlong, pure, Except.pure]
  · rw [byteIn_ok (by omega) (by omega)]
    cases startsWith mem name available right 0 <;>
      simp [hlong, Nat.not_le.mp hlong, pure, Except.pure]

theorem readCellsIn_ok {cells : ℕ} (hlow : blob ≤ data) (hhigh : data + cells * 4 ≤ blob + size) :
    readCellsIn mem blob size data cells = .ok (readCells mem data cells) := by
  unfold readCellsIn readCells
  split_ifs with h₁ h₂
  · exact be32In_ok hlow (by omega)
  · exact be64In_ok hlow (by omega)
  · rfl

theorem nameLengthIn_ok (hblock : header.structOffset + header.structSize ≤ size) {offset : ℕ} :
    ∀ fuel length, header.structSize ≤ offset + length + fuel →
      nameLengthIn mem blob size header offset (fuel + 1) length =
        .ok (nameLength mem blob header offset fuel length)
  | 0, length, h => by
    rw [nameLengthIn, nameLength, if_neg (by omega)]
    rfl
  | fuel + 1, length, h => by
    rw [nameLengthIn, nameLength]
    by_cases hin : offset + length < header.structSize
    · rw [if_pos hin, byteIn_ok (by omega) (by omega), guarded_ok_bind,
        nameLengthIn_ok hblock fuel (length + 1) (by omega)]
      by_cases hzero : mem (blob + header.structOffset + offset + length) = 0
      · rw [if_neg (not_not_intro hzero), if_neg fun h => h.2 hzero]
        rfl
      · rw [if_pos hzero, if_pos ⟨hin, hzero⟩]
    · rw [if_neg hin, if_neg fun h => hin h.1]
      rfl

theorem regLoopIn_ok {length addressCells sizeCells : ℕ} (hlow : blob ≤ data)
    (hhigh : data + length ≤ blob + size) (hlength : length + 16 < word32)
    (haddress : addressCells ≤ 2) (hsize : sizeCells ≤ 2) :
    ∀ fuel position (regions : List BootMemoryRegion), position ≤ length →
      capacity - regions.length < fuel →
      regLoopIn mem blob size capacity data length addressCells sizeCells fuel position regions =
        .ok (regLoop mem capacity data length addressCells sizeCells fuel position regions)
  | 0, _, _, _, hfuel => absurd hfuel (Nat.not_lt_zero _)
  | fuel + 1, position, regions, hposition, hfuel => by
    rw [regLoopIn, regLoop]
    have hnowrap : (position + (addressCells + sizeCells) * 4) % word32 =
        position + (addressCells + sizeCells) * 4 := Nat.mod_eq_of_lt (by omega)
    simp only [hnowrap]
    split
    · next hroom =>
      rw [readCellsIn_ok (by omega) (by omega), guarded_ok_bind,
        readCellsIn_ok (by omega) (by omega), guarded_ok_bind]
      unfold append
      split_ifs with hfull
      · rfl
      · refine regLoopIn_ok hlow hhigh hlength haddress hsize fuel _ _ hroom ?_
        rw [List.length_append, List.length_singleton]
        omega
    · rfl

theorem readPropertyIn_ok (w : Walk) {length : ℕ} (hdata : blob ≤ data)
    (hvalue : data + length ≤ blob + size) (hlength : length + 16 < word32) (hname : blob ≤ name)
    (hstring : name + available ≤ blob + size) :
    readPropertyIn mem blob size capacity w data length name available =
      .ok (readProperty mem capacity w data length name available) := by
  unfold readPropertyIn readProperty
  simp only [stringEqualsIn_ok hname hstring, guarded_ok_bind]
  by_cases hroot : w.depth = 1 ∧ length = 4
  · rw [if_pos hroot, if_pos hroot, be32In_ok hdata (by omega)]
    split_ifs <;> rfl
  · rw [if_neg hroot, if_neg hroot]
    cases w.inMemoryNode
    · rfl
    cases stringEquals mem name (literal "reg".toList) available
    · rfl
    by_cases hcells : (w.addressCells + w.sizeCells) * 4 % word32 ≠ 0 ∧ w.addressCells ≤ 2 ∧
        w.sizeCells ≤ 2
    · simp only [if_pos hcells, regLoopIn_ok hdata hvalue hlength hcells.2.1 hcells.2.2
        (capacity - w.regions.length + 1) 0 w.regions (Nat.zero_le _) (Nat.lt_succ_self _),
          Bool.and_self, if_true]
      rfl
    · simp only [if_neg hcells, Bool.and_self, if_true]
      rfl

/-- The blocks are inside the blob, and sums over the structure block do not wrap. -/
structure Fits (header : Header) (size : ℕ) : Prop where
  block : header.structOffset + header.structSize ≤ size
  strings : header.stringsOffset + header.stringsSize ≤ size
  nowrap : header.structSize + 13 ≤ word32

theorem beginNodeIn_ok (h : Fits header size) (w : Walk) :
    beginNodeIn mem blob size header w = .ok (beginNode mem blob header w) := by
  have hblock := h.block
  rw [beginNodeIn, beginNode, nameLengthIn_ok hblock _ _ (by omega), guarded_ok_bind]
  dsimp only
  split
  · rfl
  · next hend =>
    rw [nodeNameIsIn_ok (by omega) (by omega), guarded_ok_bind]
    by_cases hnode : (!w.inMemoryNode) = true ∧ (w.depth + 1) % word32 = 2
    · rw [if_pos hnode]
      split_ifs <;> simp_all [pure, Except.pure]
    · rw [if_neg hnode, if_neg fun h => hnode ⟨h.1, h.2.1⟩]
      rfl

theorem propertyIn_ok (h : Fits header size) (hw : w.offset ≤ header.structSize) :
    propertyIn mem blob size header capacity w = .ok (property mem blob header capacity w) := by
  have hblock := h.block
  have hstrings := h.strings
  have hnowrap := h.nowrap
  have hoffset : (w.offset + 8) % word32 = w.offset + 8 := Nat.mod_eq_of_lt (by omega)
  rw [propertyIn, property]
  simp only [hoffset]
  split
  · rfl
  · rw [be32In_ok (by omega) (by omega), guarded_ok_bind, be32In_ok (by omega) (by omega),
      guarded_ok_bind]
    split
    · rfl
    · rw [readPropertyIn_ok w (by omega) (by omega) (by omega) (by omega) (by omega)]
      rfl

theorem walkStepIn_ok (h : Fits header size) (hw : w.offset ≤ header.structSize + 3) :
    walkStepIn mem blob size header capacity w = .ok (walkStep mem blob header capacity w) := by
  have hblock := h.block
  have hnowrap := h.nowrap
  have hoffset : (w.offset + 4) % word32 = w.offset + 4 := Nat.mod_eq_of_lt (by omega)
  rw [walkStepIn, walkStep]
  simp only [hoffset]
  split
  · next hroom =>
    rw [be32In_ok (by omega) (by omega), guarded_ok_bind]
    split_ifs
    · rfl
    · rfl
    · exact beginNodeIn_ok h _
    · rfl
    · exact propertyIn_ok h hroom
    · rfl
  · rfl

/-- The walk stays inside the blob. -/
theorem walkLoopIn_eq (h : Fits header size) :
    ∀ fuel (w : Walk), w.offset ≤ header.structSize + 3 →
      walkLoopIn mem blob size header capacity fuel w =
        (walkLoop mem blob header capacity fuel w).elim (.error .exhausted) .ok
  | 0, _, _ => rfl
  | fuel + 1, w, hw => by
    rw [walkLoopIn, walkLoop, walkStepIn_ok h hw, guarded_ok_bind]
    rcases hstep : walkStep mem blob header capacity w with ⟨_ | _, w₁⟩
    · rfl
    · exact walkLoopIn_eq h fuel w₁ (walkStep_offset h.nowrap hstep hw).2

/-- The walk does not depend on the fuel. -/
theorem walkLoop_unique : ∀ {fuel fuel' : ℕ} {w w₁ w₂ : Walk},
    walkLoop mem blob header capacity fuel w = some w₁ →
      walkLoop mem blob header capacity fuel' w = some w₂ → w₁ = w₂
  | 0, _, _, _, _, h₁, _ => nomatch h₁
  | _ + 1, 0, _, _, _, _, h₂ => nomatch h₂
  | fuel + 1, fuel' + 1, w, w₁, w₂, h₁, h₂ => by
    rw [walkLoop] at h₁ h₂
    rcases hstep : walkStep mem blob header capacity w with ⟨_ | _, w₃⟩ <;> rw [hstep] at h₁ h₂
    · exact Option.some.inj (h₁.symm.trans h₂)
    · exact walkLoop_unique h₁ h₂

/-- A structure block of almost 4 GiB begins inside the header, and not with a token. -/
theorem first_token (hsane : headerIsSane (readHeader mem blob) = true)
    (hlarge : word32 < (readHeader mem blob).structSize + 13) :
    readBe32 mem (blob + (readHeader mem blob).structOffset) ∉
      [tokenEnd, tokenNop, tokenBeginNode, tokenEndNode, tokenProperty] := by
  obtain ⟨hmagic, -, hblock, -, hsize, -⟩ := of_decide_eq_true hsane
  obtain ⟨b, hb⟩ : ∃ b : ℕ → ℕ, ∀ k, (mem (blob + k)).toNat = b k := ⟨_, fun _ => rfl⟩
  have hbyte (k : ℕ) : b k < 256 := hb k ▸ (mem (blob + k)).toNat_lt
  have hword (k : ℕ) : readBe32 mem (blob + k) =
      b k * 2 ^ 24 + b (k + 1) * 2 ^ 16 + b (k + 2) * 2 ^ 8 + b (k + 3) := by
    simp only [readBe32, Nat.add_assoc, hb]
  have hfirst : readBe32 mem blob = _ := hword 0
  generalize ho : (readHeader mem blob).structOffset = o at *
  generalize (readHeader mem blob).structSize = n at *
  simp only [readHeader, hword, hfirst, fdtMagic, word32, Nat.reduceAdd] at *
  -- the magic number, a size of almost 4 GiB and the offset, byte by byte
  have hmagic : b 0 = 0xd0 ∧ b 1 = 0x0d ∧ b 2 = 0xfe ∧ b 3 = 0xed := by
    have := hbyte 0; have := hbyte 1; have := hbyte 2; have := hbyte 3
    omega
  have htotal : b 4 = 255 ∧ b 5 = 255 ∧ b 6 = 255 ∧ 244 ≤ b 7 ∧ o ≤ 11 := by
    have := hbyte 4; have := hbyte 5; have := hbyte 6; have := hbyte 7
    omega
  have hoffset : b 8 = 0 ∧ b 9 = 0 ∧ b 10 = 0 ∧ b 11 = o := by
    have := hbyte 8; have := hbyte 9; have := hbyte 10; have := hbyte 11
    omega
  obtain ⟨-, -, -, -, h11⟩ := id htotal
  simp only [tokenEnd, tokenNop, tokenBeginNode, tokenEndNode, tokenProperty, List.mem_cons,
    List.not_mem_nil, or_false]
  clear hblock hsize hlarge ho hsane
  interval_cases o <;> simp only [Nat.reduceAdd] <;> omega

/-- A round that reads no token ends the walk. -/
theorem walkStepIn_unknown (hblock : header.structOffset + header.structSize ≤ size)
    (hroom : w.offset + 4 ≤ header.structSize) (hnowrap : w.offset + 4 < word32)
    (htoken : readBe32 mem (blob + header.structOffset + w.offset) ∉
      [tokenEnd, tokenNop, tokenBeginNode, tokenEndNode, tokenProperty]) :
    walkStepIn mem blob size header capacity w = .ok (false, { w with offset := w.offset + 4 }) ∧
      walkStep mem blob header capacity w = (false, { w with offset := w.offset + 4 }) := by
  simp only [List.mem_cons, List.not_mem_nil, or_false, not_or] at htoken
  obtain ⟨h₁, h₂, h₃, h₄, h₅⟩ := htoken
  have hoffset := Nat.mod_eq_of_lt hnowrap
  constructor
  · rw [walkStepIn, hoffset, if_pos hroom, be32In_ok (by omega) (by omega), guarded_ok_bind,
      if_neg h₁, if_neg h₂, if_neg h₃, if_neg h₄, if_neg h₅]
    rfl
  · rw [walkStep]
    dsimp only
    rw [hoffset, if_pos hroom, if_neg h₁, if_neg h₂, if_neg h₃, if_neg h₄, if_neg h₅]

/-- **The walk over the structure block** of a sane blob is safe and ends. -/
theorem walkLoopIn_sane (hsane : headerIsSane (readHeader mem blob) = true) (fuel : ℕ) :
    walkLoopIn mem blob (readHeader mem blob).totalSize (readHeader mem blob) capacity fuel {} =
        (walkLoop mem blob (readHeader mem blob) capacity fuel {}).elim (.error .exhausted) .ok ∧
      ((readHeader mem blob).totalSize + 3 < fuel →
        ∃ w, walkLoop mem blob (readHeader mem blob) capacity fuel {} = some w) := by
  have hfirst := first_token hsane
  obtain ⟨-, -, hblock, hstrings, hblocks, hstringss⟩ := of_decide_eq_true hsane
  generalize readHeader mem blob = header at *
  by_cases hlarge : word32 < header.structSize + 13
  · have hword : 32 < word32 := by decide
    have hnone := hfirst hlarge
    rw [← Nat.add_zero (blob + header.structOffset)] at hnone
    have hstep (size : ℕ) (hsize : header.structOffset + header.structSize ≤ size) :
        walkStepIn mem blob size header capacity {} = .ok (false, { offset := 4 }) ∧
          walkStep mem blob header capacity {} = (false, { offset := 4 }) :=
      walkStepIn_unknown hsize (by dsimp only; omega) (by dsimp only; omega) hnone
    obtain ⟨hstepIn, hstep⟩ := hstep header.totalSize (by omega)
    cases fuel with
    | zero => exact ⟨rfl, fun h => absurd h (Nat.not_lt_zero _)⟩
    | succ fuel =>
      rw [walkLoopIn, walkLoop, hstepIn, hstep]
      exact ⟨rfl, fun _ => ⟨_, rfl⟩⟩
  · have hfits : Fits header header.totalSize := ⟨by omega, by omega, by omega⟩
    exact ⟨walkLoopIn_eq hfits fuel {} (Nat.zero_le _),
      fun hfuel => exists_walkLoop hfits.nowrap fuel {} (Nat.zero_le _) (by dsimp only; omega)⟩

end Walking

/-! ## The reservation block -/

section Reserving

variable (mem : ℕ → UInt8) (blob capacity : ℕ)

/-- An offset and a table that the loop over the reservation block comes by, as long as its sums
do not wrap. -/
inductive Reserving : ℕ → List BootMemoryRegion → Prop
  | start {fuel : ℕ} {w : Walk}
    (h : walkLoop mem blob (readHeader mem blob) capacity fuel {} = some w) :
    Reserving (readHeader mem blob).reservationOffset w.regions
  | next {offset : ℕ} {regions : List BootMemoryRegion} (h : Reserving offset regions)
    (hinside : offset + 16 ≤ (readHeader mem blob).totalSize) (hroom : regions.length < capacity)
    (hmore : ¬(readBe64 mem (blob + offset) = 0 ∧ readBe64 mem (blob + offset + 8) = 0)) :
    Reserving (offset + 16) (append regions capacity (readBe64 mem (blob + offset))
      (readBe64 mem (blob + offset + 8)) .reserved).2

/-- The loop does not come to the last 16 bytes of the 32-bit range with room in the table. -/
def Contained : Prop :=
  ∀ offset regions, Reserving mem blob capacity offset regions → regions.length < capacity →
    offset + 16 < word32

variable {mem blob capacity} {offset : ℕ} {regions result : List BootMemoryRegion}

/-- Where the loop ends, it ends inside the blob. -/
theorem readReservationsIn_ok (hcontained : Contained mem blob capacity) :
    ∀ fuel offset regions, Reserving mem blob capacity offset regions →
      (readHeader mem blob).totalSize - offset < fuel →
      ∃ result, readReservationsIn mem blob (readHeader mem blob).totalSize (readHeader mem blob)
          capacity fuel offset regions = .ok result ∧
        readReservations mem blob (readHeader mem blob) capacity fuel offset regions = some result
  | 0, _, _, _, hfuel => absurd hfuel (Nat.not_lt_zero _)
  | fuel + 1, offset, regions, h, hfuel => by
    rw [readReservationsIn, readReservations]
    by_cases hroom : regions.length < capacity
    · have hnowrap := Nat.mod_eq_of_lt (hcontained offset regions h hroom)
      simp only [hnowrap]
      split
      · next hin =>
        rw [be64In_ok (by omega) (by omega), guarded_ok_bind, be64In_ok (by omega) (by omega),
          guarded_ok_bind]
        split
        · exact ⟨_, rfl, rfl⟩
        · next hmore =>
          exact readReservationsIn_ok hcontained fuel _ _ (h.next hin.1 hin.2 hmore) (by omega)
      · exact ⟨_, rfl, rfl⟩
    · rw [if_neg fun h => hroom h.2, if_neg fun h => hroom h.2]
      exact ⟨_, rfl, rfl⟩

theorem Reserving.offset_lt (h : Reserving mem blob capacity offset regions) :
    offset < word32 := by
  cases h with
  | start h => exact readBe32_lt
  | next h hinside => exact hinside.trans_lt readBe32_lt

/-- A loop that ends comes by all the states that follow. -/
theorem Reserving.run (h : Reserving mem blob capacity offset regions)
    (hstart : ∀ {fuel : ℕ} {w : Walk},
      walkLoop mem blob (readHeader mem blob) capacity fuel {} = some w →
      ∃ fuel', readReservationsIn mem blob (readHeader mem blob).totalSize (readHeader mem blob)
        capacity fuel' (readHeader mem blob).reservationOffset w.regions = .ok result) :
    ∃ fuel, readReservationsIn mem blob (readHeader mem blob).totalSize (readHeader mem blob)
      capacity fuel offset regions = .ok result := by
  induction h with
  | start h => exact hstart h
  | @next offset regions h hinside hroom hmore ih =>
    obtain ⟨_ | fuel, hfuel⟩ := ih
    · cases hfuel
    have hnowrap : (offset + 16) % word32 = offset + 16 :=
      Nat.mod_eq_of_lt (hinside.trans_lt readBe32_lt)
    rw [readReservationsIn, hnowrap, if_pos ⟨hinside, hroom⟩, be64In_ok (by omega) (by omega),
      guarded_ok_bind, be64In_ok (by omega) (by omega), guarded_ok_bind, if_neg hmore] at hfuel
    exact ⟨fuel, hfuel⟩

/-- In the last 16 bytes of the 32-bit range the loop reads outside the blob. -/
theorem readReservationsIn_wrap (hoffset : offset < word32) (hwrap : word32 ≤ offset + 16)
    (hroom : regions.length < capacity) (hsize : 40 ≤ (readHeader mem blob).totalSize)
    (fuel : ℕ) :
    readReservationsIn mem blob (readHeader mem blob).totalSize (readHeader mem blob) capacity fuel
      offset regions ≠ .ok result := by
  cases fuel with
  | zero => exact fun h => nomatch h
  | succ fuel =>
    have htotal : (readHeader mem blob).totalSize < word32 := readBe32_lt
    have hsmall : (offset + 16) % word32 ≤ (readHeader mem blob).totalSize := by
      rw [Nat.mod_eq_sub_mod hwrap, Nat.mod_eq_of_lt (by omega)]
      omega
    have hsecond : be64In mem blob (readHeader mem blob).totalSize (blob + offset + 8) =
        .error .outside := within_outside (by omega)
    rw [readReservationsIn, if_pos ⟨hsmall, hroom⟩, hsecond]
    cases be64In mem blob (readHeader mem blob).totalSize (blob + offset) <;>
      exact fun h => nomatch h

/-- The reservation block is read after the walk. -/
theorem memoryMapIn_eq (hblob : blob ≠ 0) (hcapacity : capacity ≠ 0)
    (hsane : headerIsSane (readHeader mem blob) = true) (fuel : ℕ) :
    memoryMapIn fuel mem blob (readHeader mem blob).totalSize capacity =
      ((walkLoop mem blob (readHeader mem blob) capacity fuel {}).elim (.error .exhausted)
        .ok : Guarded Walk) >>= fun w =>
      readReservationsIn mem blob (readHeader mem blob).totalSize (readHeader mem blob) capacity
        fuel (readHeader mem blob).reservationOffset w.regions := by
  have hsize : 40 ≤ (readHeader mem blob).totalSize := (of_decide_eq_true hsane).2.1
  have hheader : within blob (blob + (readHeader mem blob).totalSize) blob 40
      (readHeader mem blob) = .ok (readHeader mem blob) := within_ok le_rfl (by omega)
  rw [memoryMapIn, if_neg (not_or.mpr ⟨hblob, hcapacity⟩), hheader, guarded_ok_bind, hsane,
    (walkLoopIn_sane hsane fuel).1]
  rfl

/-- A reservation block is contained when it and the blob end 16 bytes below 4 GiB. -/
theorem contained_of_lt (hoffset : (readHeader mem blob).reservationOffset + 16 < word32)
    (htotal : (readHeader mem blob).totalSize + 16 < word32) : Contained mem blob capacity := by
  intro offset regions h _
  cases h with
  | start h => exact hoffset
  | next h hinside => omega

/-- A run that ends has stayed clear of the last 16 bytes of the 32-bit range. -/
theorem contained_of_memoryMapIn (hblob : blob ≠ 0) (hcapacity : capacity ≠ 0)
    (hsane : headerIsSane (readHeader mem blob) = true) {fuel : ℕ}
    (hrun : memoryMapIn fuel mem blob (readHeader mem blob).totalSize capacity = .ok result) :
    Contained mem blob capacity := by
  intro offset regions hreach hroom
  by_contra hwrap
  have hsize : 40 ≤ (readHeader mem blob).totalSize := (of_decide_eq_true hsane).2.1
  have hstart {fuel₁ : ℕ} {w : Walk}
      (hwalk : walkLoop mem blob (readHeader mem blob) capacity fuel₁ {} = some w) :
      ∃ fuel', readReservationsIn mem blob (readHeader mem blob).totalSize (readHeader mem blob)
        capacity fuel' (readHeader mem blob).reservationOffset w.regions = .ok result := by
    rw [memoryMapIn_eq hblob hcapacity hsane] at hrun
    cases hw : walkLoop mem blob (readHeader mem blob) capacity fuel {} with
    | none =>
      rw [hw] at hrun
      cases hrun
    | some w =>
      rw [hw] at hrun
      exact ⟨fuel, walkLoop_unique hw hwalk ▸ hrun⟩
  obtain ⟨fuel', hend⟩ := hreach.run hstart
  exact readReservationsIn_wrap hreach.offset_lt (Nat.not_lt.mp hwrap) hroom hsize fuel' hend

theorem exists_memoryMapIn (hblob : blob ≠ 0) (hcapacity : capacity ≠ 0)
    (hsane : headerIsSane (readHeader mem blob) = true) (hcontained : Contained mem blob capacity)
    {fuel : ℕ} (hfuel : (readHeader mem blob).totalSize + 3 < fuel) :
    ∃ regions, memoryMapIn fuel mem blob (readHeader mem blob).totalSize capacity = .ok regions ∧
      fdtMemoryMap fuel mem blob capacity = some regions := by
  obtain ⟨w, hw⟩ : ∃ w, walkLoop mem blob (readHeader mem blob) capacity fuel {} = some w :=
    (walkLoopIn_sane hsane fuel).2 hfuel
  obtain ⟨result, hresultIn, hresult⟩ := readReservationsIn_ok hcontained fuel _ _ (.start hw)
    (by omega)
  refine ⟨result, ?_, ?_⟩
  · rw [memoryMapIn_eq hblob hcapacity hsane, hw]
    exact hresultIn
  · rw [fdtMemoryMap, if_neg (not_or.mpr ⟨hblob, hcapacity⟩)]
    simp only [hsane, Bool.not_true, Bool.false_eq_true, if_false, hw, hresult]

/-- **The map is read safely exactly when the reservation block is contained**: the run ends, no
read leaves the blob, and the table is not overfilled. -/
theorem fdtMemoryMap_safe_iff (hblob : blob ≠ 0)
    (hsane : headerIsSane (readHeader mem blob) = true) :
    (∃ fuel regions, memoryMapIn fuel mem blob (readHeader mem blob).totalSize capacity =
        .ok regions ∧
      fdtMemoryMap fuel mem blob capacity = some regions ∧ regions.length ≤ capacity) ↔
      Contained mem blob capacity := by
  by_cases hcapacity : capacity = 0
  · refine iff_of_true ⟨0, [], ?_, ?_, Nat.zero_le _⟩ fun _ _ _ hroom => ?_
    · rw [memoryMapIn, if_pos (.inr hcapacity)]
      rfl
    · rw [fdtMemoryMap, if_pos (.inr hcapacity)]
    · omega
  constructor
  · rintro ⟨fuel, result, hrun, -, -⟩
    exact contained_of_memoryMapIn hblob hcapacity hsane hrun
  · intro hcontained
    obtain ⟨regions, hrun, hmap⟩ := exists_memoryMapIn hblob hcapacity hsane hcontained
      (Nat.lt_succ_self _)
    exact ⟨_, regions, hrun, hmap, fdtMemoryMap_length_le hmap⟩

end Reserving

theorem fdtMemoryMap_safe_bankBlob :
    ∃ fuel regions, memoryMapIn fuel (bankBlob true) 4096
        (readHeader (bankBlob true) 4096).totalSize 3 = .ok regions ∧
      fdtMemoryMap fuel (bankBlob true) 4096 3 = some regions ∧ regions.length ≤ 3 :=
  (fdtMemoryMap_safe_iff (by decide) (by decide +kernel)).mpr
    (contained_of_lt (by decide +kernel) (by decide +kernel))

/-- A header only, whose reservation block is said to be 16 bytes below 4 GiB. -/
def bareHeader : ℕ → UInt8 := wordsAt 4096 [fdtMagic, 40, 40, 40, 0xfffffff0]

/-- The header is sane, and the loop reads there. -/
theorem fdtMemoryMap_outside :
    headerIsSane (readHeader bareHeader 4096) = true ∧
      (readHeader bareHeader 4096).totalSize = 40 ∧
      memoryMapIn 2 bareHeader 4096 40 1 = .error .outside :=
  ⟨by decide +kernel, by decide +kernel, by rfl⟩

end ShirleysOS.Boot
