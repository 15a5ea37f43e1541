import ShirleysOS.Memory.PageAllocator

/-!
# The flattened device tree

On QEMU virt the firmware hands the kernel a device tree blob. `fdt_memory_map` walks its
structure block for the `reg` property of `/memory` and then its reservation block, and fills a
table of memory regions. Every integer of a blob is big-endian, and the walk computes in 32-bit
words that wrap, so the loops run on fuel and return nothing when it is used up.
Source: `platform/firmware/fdt.cpp`.

Memory is a function from addresses to bytes, and a blob the address it starts at.
-/

namespace ShirleysOS.Boot

open Memory

/-- The number of values of a 32-bit word. -/
def word32 : ℕ := 2 ^ 32

def fdtMagic : ℕ := 0xd00dfeed

def tokenBeginNode : ℕ := 1
def tokenEndNode : ℕ := 2
def tokenProperty : ℕ := 3
def tokenNop : ℕ := 4
def tokenEnd : ℕ := 9

section Reading

variable (mem : ℕ → UInt8)

def readBe32 (source : ℕ) : ℕ :=
  (mem source).toNat * 2 ^ 24 + (mem (source + 1)).toNat * 2 ^ 16 +
    (mem (source + 2)).toNat * 2 ^ 8 + (mem (source + 3)).toNat

def readBe64 (source : ℕ) : ℕ := readBe32 mem source * 2 ^ 32 + readBe32 mem (source + 4)

/-- The fields of the header that are read. -/
structure Header where
  magic : ℕ
  totalSize : ℕ
  structOffset : ℕ
  stringsOffset : ℕ
  reservationOffset : ℕ
  stringsSize : ℕ
  structSize : ℕ
deriving DecidableEq, Repr

def readHeader (blob : ℕ) : Header where
  magic := readBe32 mem blob
  totalSize := readBe32 mem (blob + 4)
  structOffset := readBe32 mem (blob + 8)
  stringsOffset := readBe32 mem (blob + 12)
  reservationOffset := readBe32 mem (blob + 16)
  stringsSize := readBe32 mem (blob + 32)
  structSize := readBe32 mem (blob + 36)

def align4 (value : ℕ) : ℕ := (value + 3) % word32 / 4 * 4

/-- The bytes of a C string literal, without its terminator. -/
def literal (text : List Char) : List UInt8 := text.map fun c => UInt8.ofNat c.toNat

/-- The bytes from `name` on begin with `expected`, inside the `available` ones; `i` counts the
bytes compared. -/
def startsWith (name available : ℕ) : List UInt8 → ℕ → Bool
  | [], _ => true
  | c :: expected, i =>
    if i ≥ available ∨ mem (name + i) ≠ c then false else startsWith name available expected (i + 1)

/-- `node_name_is`: a node name may carry a unit address behind an `@`. -/
def nodeNameIs (name : ℕ) (expected : List UInt8) (available : ℕ) : Bool :=
  startsWith mem name available expected 0 &&
    (decide (expected.length ≥ available) || mem (name + expected.length) == 0 ||
      mem (name + expected.length) == UInt8.ofNat '@'.toNat)

def stringEquals (left : ℕ) (right : List UInt8) (available : ℕ) : Bool :=
  startsWith mem left available right 0 &&
    (decide (right.length < available) && mem (left + right.length) == 0)

/-- One address or length of `cells` 32-bit words. -/
def readCells (data cells : ℕ) : ℕ :=
  if cells = 1 then readBe32 mem data else if cells = 2 then readBe64 mem data else 0

/-- `header_is_sane`: 40 is the size of the header. The reservation block is not checked. -/
def headerIsSane (header : Header) : Bool :=
  decide (header.magic = fdtMagic ∧ 40 ≤ header.totalSize ∧
    header.structOffset ≤ header.totalSize ∧ header.stringsOffset ≤ header.totalSize ∧
    header.structSize ≤ header.totalSize - header.structOffset ∧
    header.stringsSize ≤ header.totalSize - header.stringsOffset)

/-- `fdt_valid`; address 0 is the null pointer. -/
def fdtValid (blob : ℕ) : Bool := decide (blob ≠ 0) && headerIsSane (readHeader mem blob)

def fdtTotalSize (blob : ℕ) : ℕ :=
  if fdtValid mem blob then (readHeader mem blob).totalSize else 0

end Reading

theorem readBe32_lt {mem : ℕ → UInt8} {source : ℕ} : readBe32 mem source < word32 := by
  have h₀ := (mem source).toNat_lt
  have h₁ := (mem (source + 1)).toNat_lt
  have h₂ := (mem (source + 2)).toNat_lt
  have h₃ := (mem (source + 3)).toNat_lt
  simp only [readBe32, word32]
  omega

/-- `append`: the table of regions, of which `capacity` fit. -/
def append (regions : List BootMemoryRegion) (capacity start length : ℕ) (type : MemoryType) :
    Bool × List BootMemoryRegion :=
  if length = 0 ∨ regions.length ≥ capacity then (false, regions)
  else (true, regions ++ [⟨UInt64.ofNat start, UInt64.ofNat length, type⟩])

/-! ## The walk over the structure block -/

/-- The variables of the loop over the structure block. -/
structure Walk where
  offset : ℕ := 0
  addressCells : ℕ := 2
  sizeCells : ℕ := 2
  depth : ℕ := 0
  memoryDepth : ℕ := 0
  inMemoryNode : Bool := false
  regions : List BootMemoryRegion := []

section Walking

variable (mem : ℕ → UInt8) (blob : ℕ) (header : Header) (capacity : ℕ)

/-- The length of the name at `offset`, counted to its terminator or the end of the block. -/
def nameLength (offset : ℕ) : ℕ → ℕ → ℕ
  | 0, length => length
  | fuel + 1, length =>
    if offset + length < header.structSize ∧ mem (blob + header.structOffset + offset + length) ≠ 0
    then nameLength offset fuel (length + 1) else length

/-- The loop over a `reg` property. Every round that goes on has filled a place of the table, so
the free places bound the rounds. -/
def regLoop (data length addressCells sizeCells : ℕ) : ℕ → ℕ → List BootMemoryRegion →
    List BootMemoryRegion
  | 0, _, regions => regions
  | fuel + 1, position, regions =>
    let stride := (addressCells + sizeCells) * 4
    if (position + stride) % word32 ≤ length then
      let base := readCells mem (data + position) addressCells
      let size := readCells mem (data + position + addressCells * 4) sizeCells
      match append regions capacity base size .usable with
      | (true, regions) =>
        regLoop data length addressCells sizeCells fuel ((position + stride) % word32) regions
      | (false, regions) => regions
    else regions

/-- What a property does to the cell counts and the regions. -/
def readProperty (w : Walk) (data length name available : ℕ) : Walk :=
  if w.depth = 1 ∧ length = 4 then
    if stringEquals mem name (literal "#address-cells".toList) available then
      { w with addressCells := readBe32 mem data }
    else if stringEquals mem name (literal "#size-cells".toList) available then
      { w with sizeCells := readBe32 mem data }
    else w
  else if w.inMemoryNode && stringEquals mem name (literal "reg".toList) available then
    if (w.addressCells + w.sizeCells) * 4 % word32 ≠ 0 ∧ w.addressCells ≤ 2 ∧ w.sizeCells ≤ 2 then
      { w with
        regions := regLoop mem capacity data length w.addressCells w.sizeCells
          (capacity - w.regions.length + 1) 0 w.regions }
    else w
  else w

/-- The branch for the start of a node, whose name stands at the offset. -/
def beginNode (w : Walk) : Bool × Walk :=
  let length := nameLength mem blob header w.offset (header.structSize - w.offset) 0
  if w.offset + length ≥ header.structSize then (false, w)
  else
    let depth := (w.depth + 1) % word32
    let offset := (w.offset + align4 (length + 1)) % word32
    -- the root node sits at depth 1, so `/memory` is at depth 2
    if !w.inMemoryNode ∧ depth = 2 ∧
        nodeNameIs mem (blob + header.structOffset + w.offset) (literal "memory".toList) length then
      (true, { w with depth, offset, inMemoryNode := true, memoryDepth := depth })
    else (true, { w with depth, offset })

/-- The branch for the end of a node. -/
def endNode (w : Walk) : Bool × Walk :=
  let w := if w.inMemoryNode ∧ w.depth = w.memoryDepth then { w with inMemoryNode := false } else w
  if w.depth = 0 then (false, w) else (true, { w with depth := w.depth - 1 })

/-- The branch for a property: its length and the offset of its name, then its value. -/
def property (w : Walk) : Bool × Walk :=
  if (w.offset + 8) % word32 > header.structSize then (false, w)
  else
    let length := readBe32 mem (blob + header.structOffset + w.offset)
    let nameOffset := readBe32 mem (blob + header.structOffset + w.offset + 4)
    let offset := (w.offset + 8) % word32
    if length > header.structSize - offset ∨ nameOffset ≥ header.stringsSize then (false, w)
    else
      let w := readProperty mem capacity w (blob + header.structOffset + offset) length
        (blob + header.stringsOffset + nameOffset) (header.stringsSize - nameOffset)
      (true, { w with offset := (offset + align4 length) % word32 })

/-- One round of the loop over the structure block; `false` stops it, as an unknown token does. -/
def walkStep (w : Walk) : Bool × Walk :=
  if (w.offset + 4) % word32 ≤ header.structSize then
    let token := readBe32 mem (blob + header.structOffset + w.offset)
    let w := { w with offset := (w.offset + 4) % word32 }
    if token = tokenEnd then (false, w)
    else if token = tokenNop then (true, w)
    else if token = tokenBeginNode then beginNode mem blob header w
    else if token = tokenEndNode then endNode w
    else if token = tokenProperty then property mem blob header capacity w
    else (false, w)
  else (false, w)

/-- The loop over the structure block. -/
def walkLoop : ℕ → Walk → Option Walk
  | 0, _ => none
  | fuel + 1, w =>
    match walkStep mem blob header capacity w with
    | (true, w) => walkLoop fuel w
    | (false, w) => some w

/-- `read_reservations`: pairs of an address and a length, up to a pair of zeros. -/
def readReservations : ℕ → ℕ → List BootMemoryRegion → Option (List BootMemoryRegion)
  | 0, _, _ => none
  | fuel + 1, offset, regions =>
    if (offset + 16) % word32 ≤ header.totalSize ∧ regions.length < capacity then
      let address := readBe64 mem (blob + offset)
      let length := readBe64 mem (blob + offset + 8)
      if address = 0 ∧ length = 0 then some regions
      else readReservations fuel ((offset + 16) % word32)
        (append regions capacity address length .reserved).2
    else some regions

end Walking

/-- `fdt_memory_map` with a table of `capacity` regions. -/
def fdtMemoryMap (fuel : ℕ) (mem : ℕ → UInt8) (blob capacity : ℕ) :
    Option (List BootMemoryRegion) :=
  if blob = 0 ∨ capacity = 0 then some []
  else
    let header := readHeader mem blob
    if !headerIsSane header then some []
    else
      match walkLoop mem blob header capacity fuel {} with
      | none => none
      | some w => readReservations mem blob header capacity fuel header.reservationOffset w.regions

/-! ## The table is not overfilled -/

section Capacity

variable {mem : ℕ → UInt8} {blob : ℕ} {header : Header} {capacity : ℕ}

theorem append_length_le {regions : List BootMemoryRegion} (h : regions.length ≤ capacity)
    (start length : ℕ) (type : MemoryType) :
    (append regions capacity start length type).2.length ≤ capacity := by
  unfold append
  split_ifs with hfull
  · exact h
  · simp only [List.length_append, List.length_singleton]
    omega

theorem regLoop_length_le (data length addressCells sizeCells : ℕ) :
    ∀ fuel position (regions : List BootMemoryRegion), regions.length ≤ capacity →
      (regLoop mem capacity data length addressCells sizeCells fuel position regions).length ≤
        capacity := by
  intro fuel
  induction fuel with
  | zero => exact fun _ _ h => h
  | succ fuel ih =>
    intro position regions h
    rw [regLoop]
    dsimp only
    split_ifs
    · have happend := append_length_le h (readCells mem (data + position) addressCells)
        (readCells mem (data + position + addressCells * 4) sizeCells) .usable
      split <;> next heq => rw [heq] at happend; first | exact ih _ _ happend | exact happend
    · exact h

theorem readProperty_length_le {w : Walk} (h : w.regions.length ≤ capacity)
    (data length name available : ℕ) :
    (readProperty mem capacity w data length name available).regions.length ≤ capacity := by
  unfold readProperty
  split_ifs <;> first | exact h | exact regLoop_length_le _ _ _ _ _ _ _ h

theorem beginNode_regions (w : Walk) : (beginNode mem blob header w).2.regions = w.regions := by
  unfold beginNode
  dsimp only
  split_ifs <;> rfl

theorem endNode_regions (w : Walk) : (endNode w).2.regions = w.regions := by
  unfold endNode
  dsimp only
  split_ifs <;> rfl

theorem property_length_le {w w' : Walk} {more : Bool} (h : w.regions.length ≤ capacity)
    (hr : property mem blob header capacity w = (more, w')) : w'.regions.length ≤ capacity := by
  unfold property at hr
  dsimp only at hr
  split_ifs at hr <;> obtain rfl := (Prod.mk.inj hr).2
  · exact h
  · exact h
  · dsimp only
    exact readProperty_length_le h _ _ _ _

theorem walkStep_length_le {w w' : Walk} {more : Bool} (h : w.regions.length ≤ capacity)
    (hr : walkStep mem blob header capacity w = (more, w')) : w'.regions.length ≤ capacity := by
  unfold walkStep at hr
  dsimp only at hr
  split_ifs at hr
  · exact (Prod.mk.inj hr).2 ▸ h
  · exact (Prod.mk.inj hr).2 ▸ h
  · have := congrArg (·.2.regions) hr
    rw [beginNode_regions] at this
    exact this ▸ h
  · have := congrArg (·.2.regions) hr
    rw [endNode_regions] at this
    exact this ▸ h
  · exact property_length_le (w := { w with offset := (w.offset + 4) % word32 }) h hr
  · exact (Prod.mk.inj hr).2 ▸ h
  · exact (Prod.mk.inj hr).2 ▸ h

theorem walkLoop_length_le :
    ∀ fuel (w w' : Walk), w.regions.length ≤ capacity →
      walkLoop mem blob header capacity fuel w = some w' → w'.regions.length ≤ capacity := by
  intro fuel
  induction fuel with
  | zero => intro w w' _ h; cases h
  | succ fuel ih =>
    intro w w' hw h
    rw [walkLoop] at h
    split at h <;> next heq =>
      have hstep := walkStep_length_le hw heq
      first
      | exact ih _ _ hstep h
      | exact Option.some.inj h ▸ hstep

theorem readReservations_length_le :
    ∀ fuel offset (regions result : List BootMemoryRegion), regions.length ≤ capacity →
      readReservations mem blob header capacity fuel offset regions = some result →
        result.length ≤ capacity := by
  intro fuel
  induction fuel with
  | zero => intro _ _ _ _ h; cases h
  | succ fuel ih =>
    intro offset regions result hlen h
    rw [readReservations] at h
    dsimp only at h
    split_ifs at h
    · exact Option.some.inj h ▸ hlen
    · exact ih _ _ _ (append_length_le hlen _ _ _) h
    · exact Option.some.inj h ▸ hlen

/-- **The table is never overfilled.** -/
theorem fdtMemoryMap_length_le {fuel : ℕ} {regions : List BootMemoryRegion}
    (h : fdtMemoryMap fuel mem blob capacity = some regions) : regions.length ≤ capacity := by
  rw [fdtMemoryMap] at h
  dsimp only at h
  split_ifs at h
  · cases h
    exact Nat.zero_le _
  · cases h
    exact Nat.zero_le _
  · cases hw : walkLoop mem blob (readHeader mem blob) capacity fuel {} with
    | none =>
      rw [hw] at h
      cases h
    | some w =>
      rw [hw] at h
      exact readReservations_length_le _ _ _ _ (walkLoop_length_le _ _ _ (Nat.zero_le _) hw) h

end Capacity

/-! ## The walk ends -/

section Termination

variable {mem : ℕ → UInt8} {blob : ℕ} {header : Header} {capacity : ℕ}

theorem align4_le (value : ℕ) : align4 value ≤ value + 3 := by
  unfold align4
  have := Nat.mod_le (value + 3) word32
  omega

theorem beginNode_offset {w w' : Walk} (hsize : header.structSize + 13 ≤ word32)
    (h : beginNode mem blob header w = (true, w')) :
    w.offset ≤ w'.offset ∧ w'.offset ≤ header.structSize + 3 := by
  unfold beginNode at h
  dsimp only at h
  have hle := align4_le (nameLength mem blob header w.offset (header.structSize - w.offset) 0 + 1)
  split_ifs at h
  · cases h
  all_goals
    obtain rfl := (Prod.mk.inj h).2
    dsimp only
    rw [Nat.mod_eq_of_lt (by omega)]
    omega

theorem endNode_offset (w : Walk) : (endNode w).2.offset = w.offset := by
  unfold endNode
  dsimp only
  split_ifs <;> rfl

theorem property_offset {w w' : Walk} (hsize : header.structSize + 13 ≤ word32)
    (hw : w.offset ≤ header.structSize) (h : property mem blob header capacity w = (true, w')) :
    w.offset ≤ w'.offset ∧ w'.offset ≤ header.structSize + 3 := by
  unfold property at h
  dsimp only at h
  have hle := align4_le (readBe32 mem (blob + header.structOffset + w.offset))
  have hoff : (w.offset + 8) % word32 = w.offset + 8 := Nat.mod_eq_of_lt (by omega)
  rw [hoff] at h
  split_ifs at h
  · cases h
  · cases h
  · obtain rfl := (Prod.mk.inj h).2
    dsimp only
    rw [Nat.mod_eq_of_lt (by omega)]
    omega

/-- A round that goes on moves forward, and at most three bytes beyond the block. -/
theorem walkStep_offset {w w' : Walk} (hsize : header.structSize + 13 ≤ word32)
    (h : walkStep mem blob header capacity w = (true, w')) (hw : w.offset ≤ header.structSize + 3) :
    w.offset < w'.offset ∧ w'.offset ≤ header.structSize + 3 := by
  unfold walkStep at h
  dsimp only at h
  have hoff : (w.offset + 4) % word32 = w.offset + 4 := Nat.mod_eq_of_lt (by omega)
  rw [hoff] at h
  split_ifs at h with hroom hend hnop hbegin hendNode hproperty
  · cases h
  · obtain rfl := (Prod.mk.inj h).2
    dsimp only
    omega
  · have := beginNode_offset hsize h
    dsimp only at this
    omega
  · have := endNode_offset { w with offset := w.offset + 4 }
    rw [h] at this
    dsimp only at this
    omega
  · have := property_offset hsize hroom h
    dsimp only at this
    omega
  · cases h
  · cases h

theorem exists_walkLoop (hsize : header.structSize + 13 ≤ word32) :
    ∀ fuel (w : Walk), w.offset ≤ header.structSize + 3 → header.structSize + 3 - w.offset < fuel →
      ∃ w', walkLoop mem blob header capacity fuel w = some w' := by
  intro fuel
  induction fuel with
  | zero => intro w _ h; omega
  | succ fuel ih =>
    intro w hw hfuel
    rw [walkLoop]
    split
    · next w₁ heq =>
      obtain ⟨h₁, h₂⟩ := walkStep_offset hsize heq hw
      exact ih w₁ h₂ (by omega)
    · next w₁ heq => exact ⟨w₁, rfl⟩

end Termination

/-! ### A sample -/

/-- Memory that holds the 32-bit words from `base` on, and zeros elsewhere. -/
def wordsAt (base : ℕ) (words : List ℕ) (a : ℕ) : UInt8 :=
  if a < base then 0
  else UInt8.ofNat (words.getD ((a - base) / 4) 0 / 2 ^ (8 * (3 - (a - base) % 4)))

/-- A tree with a reservation of the first page and a memory node of two banks, at 64 KiB and,
before it, at 0, with 4 KiB or empty. -/
def bankBlob (full : Bool) : ℕ → UInt8 :=
  wordsAt 4096 ([fdtMagic, 152, 72, 148, 40, 17, 16, 0, 4, 76] ++ [0, 0, 0, 4096, 0, 0, 0, 0] ++
    [tokenBeginNode, 0, tokenBeginNode, 0x6d656d6f, 0x72790000, tokenProperty, 32, 0] ++
    [0, 0, 0, if full then 4096 else 0, 0, 65536, 0, 4096, tokenEndNode, tokenEndNode, tokenEnd] ++
    [0x72656700])

end ShirleysOS.Boot
