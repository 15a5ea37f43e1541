import ShirleysOS.Boot.DeviceTree

/-!
# The tokens of the device tree

The structure block is a stream of tokens: a node begins, with its name, or ends, a property has a
name and a value, and there are fillers. On its way `fdt_memory_map` keeps the cell counts of the
root, the depth, whether it is in a memory node, and the banks that it has found.
Source: `platform/firmware/fdt.cpp`.
-/

namespace ShirleysOS.Boot

open Memory

/-! ## Bytes -/

/-- A big-endian number. -/
def number (bytes : List UInt8) : ℕ := bytes.foldl (fun n b => n * 256 + b.toNat) 0

def bytesAt (mem : ℕ → UInt8) (a n : ℕ) : List UInt8 := (List.range n).map fun i => mem (a + i)

/-- A C string in memory. -/
structure CString (mem : ℕ → UInt8) (a : ℕ) (text : List UInt8) : Prop where
  bytes : bytesAt mem a text.length = text
  clean : (0 : UInt8) ∉ text
  ends : mem (a + text.length) = 0

/-- A node has a name, perhaps with a unit address behind it. -/
def named (expected name : List UInt8) : Bool :=
  name == expected || (expected ++ [UInt8.ofNat '@'.toNat]).isPrefixOf name

variable {available offset : ℕ} {name : List UInt8}

section Bytes

variable {mem : ℕ → UInt8} {a n : ℕ} {text other : List UInt8}

@[simp] theorem length_bytesAt : (bytesAt mem a n).length = n := by
  rw [bytesAt, List.length_map, List.length_range]

theorem getElem_of_bytesAt (h : bytesAt mem a text.length = text) {i : ℕ}
    (hi : i < text.length) : text[i] = mem (a + i) := by
  have hget := congrArg (fun l => l[i]?) h
  simp only [bytesAt, List.getElem?_map, List.getElem?_range hi, Option.map_some] at hget
  rw [List.getElem?_eq_getElem hi] at hget
  exact (Option.some.inj hget).symm

theorem take_drop_of_bytesAt (h : bytesAt mem a text.length = text) {p : ℕ}
    (hp : p + n ≤ text.length) : (text.drop p).take n = bytesAt mem (a + p) n := by
  refine List.ext_getElem ?_ fun i hi _ => ?_
  · rw [List.length_take, List.length_drop, length_bytesAt]
    omega
  · rw [List.length_take] at hi
    rw [List.getElem_take, List.getElem_drop, getElem_of_bytesAt h]
    simp only [bytesAt, List.getElem_map, List.getElem_range, Nat.add_assoc]

theorem readBe32_eq : readBe32 mem a = number (bytesAt mem a 4) := by
  simp only [readBe32, number, bytesAt, List.range_succ, List.range_zero, List.nil_append,
    List.cons_append, List.map_cons, List.map_nil, List.foldl_cons, List.foldl_nil, Nat.add_zero]
  omega

theorem readBe64_eq : readBe64 mem a = number (bytesAt mem a 8) := by
  simp only [readBe64, readBe32, number, bytesAt, List.range_succ, List.range_zero,
    List.nil_append, List.cons_append, List.map_cons, List.map_nil, List.foldl_cons,
    List.foldl_nil, Nat.add_zero, Nat.add_assoc, Nat.reduceAdd]
  omega

theorem readCells_eq {cells : ℕ} (h : cells ≤ 2) :
    readCells mem a cells = number (bytesAt mem a (4 * cells)) := by
  unfold readCells
  obtain rfl | rfl | rfl : cells = 0 ∨ cells = 1 ∨ cells = 2 := by omega
  · rfl
  · exact readBe32_eq
  · exact readBe64_eq

theorem CString.ne_zero (h : CString mem a text) {i : ℕ} (hi : i < text.length) :
    mem (a + i) ≠ 0 := by
  intro hzero
  rw [← getElem_of_bytesAt h.bytes hi] at hzero
  exact h.clean (hzero ▸ List.getElem_mem hi)

/-- Only one C string begins at an address. -/
theorem CString.unique (h : CString mem a text) (h' : CString mem a other) : text = other := by
  have hlength : text.length = other.length := by
    rcases Nat.lt_trichotomy text.length other.length with hlt | heq | hgt
    · exact absurd h.ends (h'.ne_zero hlt)
    · exact heq
    · exact absurd h'.ends (h.ne_zero hgt)
  rw [← h.bytes, hlength, h'.bytes]

/-- The comparison of `node_name_is` and `string_equals`. -/
theorem startsWith_iff : ∀ {expected : List UInt8} {i : ℕ},
    startsWith mem a available expected i = true ↔
      (expected = [] ∨ i + expected.length ≤ available) ∧
        bytesAt mem (a + i) expected.length = expected
  | [], i => by simp [startsWith, bytesAt]
  | c :: expected, i => by
    have hbytes : bytesAt mem (a + i) (c :: expected).length = c :: expected ↔
        mem (a + i) = c ∧ bytesAt mem (a + (i + 1)) expected.length = expected := by
      simp only [bytesAt, List.length_cons, List.range_succ_eq_map, List.map_cons, List.map_map,
        List.cons.injEq, Nat.add_zero, Function.comp_def]
      simp only [Nat.add_assoc, Nat.add_comm 1]
    rw [startsWith, hbytes]
    split
    · next hstop =>
      refine iff_of_false (by decide) fun ⟨hroom, hc, _⟩ => ?_
      simp only [reduceCtorEq, false_or, List.length_cons] at hroom
      exact hstop.elim (fun h => by omega) fun h => h hc
    · next hgo =>
      rw [not_or, not_le, not_not] at hgo
      rw [startsWith_iff]
      simp only [reduceCtorEq, false_or, List.length_cons, hgo.2, true_and]
      refine and_congr_left fun _ => ⟨fun h => ?_, fun h => .inr (by omega)⟩
      rcases h with rfl | h
      · exact hgo.1
      · omega

theorem stringEquals_iff (h : CString mem a text) (hroom : text.length < available)
    (hclean : (0 : UInt8) ∉ other) : stringEquals mem a other available = true ↔ text = other := by
  rw [stringEquals, Bool.and_eq_true, Bool.and_eq_true, startsWith_iff, decide_eq_true_eq,
    beq_iff_eq, Nat.add_zero]
  constructor
  · rintro ⟨⟨-, hbytes⟩, -, hends⟩
    exact h.unique ⟨hbytes, hclean, hends⟩
  · rintro rfl
    exact ⟨⟨.inr (by omega), h.bytes⟩, hroom, h.ends⟩

/-- `node_name_is` compares the name of a node. -/
theorem nodeNameIs_eq (h : CString mem a text) :
    nodeNameIs mem a other text.length = named other text := by
  rw [Bool.eq_iff_iff, nodeNameIs, named, Bool.and_eq_true, Bool.or_eq_true, Bool.or_eq_true,
    Bool.or_eq_true, startsWith_iff, decide_eq_true_eq, beq_iff_eq, beq_iff_eq, beq_iff_eq,
    List.isPrefixOf_iff_prefix, Nat.add_zero, Nat.zero_add]
  -- the bytes compared are the beginning of the name
  have htake (hle : other.length ≤ text.length) :
      text.take other.length = bytesAt mem a other.length :=
    take_drop_of_bytesAt h.bytes (p := 0) (by omega)
  constructor
  · rintro ⟨⟨hroom, hbytes⟩, hnext⟩
    have hle : other.length ≤ text.length := by
      rcases hroom with rfl | hle
      · exact Nat.zero_le _
      · exact hle
    rw [← htake hle] at hbytes
    rcases Nat.lt_or_ge other.length text.length with hlt | hge
    · have hsign := (hnext.resolve_left fun h' => h'.elim (by omega) (h.ne_zero hlt))
      refine .inr ⟨text.drop (other.length + 1), ?_⟩
      rw [← hsign, ← getElem_of_bytesAt h.bytes hlt]
      nth_rewrite 1 [← hbytes]
      rw [← List.take_succ_eq_append_getElem hlt, List.take_append_drop]
    · rw [List.take_of_length_le hge] at hbytes
      exact .inl hbytes
  · rintro (rfl | ⟨rest, rfl⟩)
    · exact ⟨⟨.inr (Nat.le_refl _), h.bytes⟩, .inl (.inl (Nat.le_refl _))⟩
    · have hlt : other.length < (other ++ [UInt8.ofNat '@'.toNat] ++ rest).length := by
        simp only [List.length_append, List.length_singleton]
        omega
      refine ⟨⟨.inr (Nat.le_of_lt hlt), ?_⟩, .inr ?_⟩
      · rw [← htake (Nat.le_of_lt hlt), List.append_assoc, List.take_left]
      · rw [← getElem_of_bytesAt h.bytes hlt]
        simp

end Bytes

/-! ## Streams of tokens -/

/-- A token of the structure block. -/
inductive Token
  | beginNode (name : List UInt8)
  | endNode
  | property (name value : List UInt8)
  | nop
deriving DecidableEq, Repr

/-- The length of something that is filled up to whole words. -/
def padded (n : ℕ) : ℕ := (n + 3) / 4 * 4

section Streams

variable (mem : ℕ → UInt8) (blob : ℕ) (header : Header)

/-- The token at an offset of the structure block, and the offset behind it. -/
inductive TokenAt (offset : ℕ) : Token → ℕ → Prop
  | beginNode {name : List UInt8}
      (token : readBe32 mem (blob + header.structOffset + offset) = tokenBeginNode)
      (text : CString mem (blob + header.structOffset + (offset + 4)) name) :
      TokenAt offset (.beginNode name) (offset + 4 + padded (name.length + 1))
  | endNode (token : readBe32 mem (blob + header.structOffset + offset) = tokenEndNode) :
      TokenAt offset .endNode (offset + 4)
  | property {name value : List UInt8} {nameOffset : ℕ}
      (token : readBe32 mem (blob + header.structOffset + offset) = tokenProperty)
      (length : readBe32 mem (blob + header.structOffset + (offset + 4)) = value.length)
      (offsetRead : readBe32 mem (blob + header.structOffset + (offset + 4) + 4) = nameOffset)
      (text : CString mem (blob + header.stringsOffset + nameOffset) name)
      (inside : nameOffset + name.length < header.stringsSize)
      (data : bytesAt mem (blob + header.structOffset + (offset + 12)) value.length = value) :
      TokenAt offset (.property name value) (offset + 12 + padded value.length)
  | nop (token : readBe32 mem (blob + header.structOffset + offset) = tokenNop) :
      TokenAt offset .nop (offset + 4)

/-- From an offset on, the structure block holds tokens up to its end token. -/
inductive Stream : ℕ → List Token → Prop
  | finish {offset : ℕ} (room : offset + 4 ≤ header.structSize)
      (token : readBe32 mem (blob + header.structOffset + offset) = tokenEnd) : Stream offset []
  | cons {offset next : ℕ} {token : Token} {tokens : List Token}
      (first : TokenAt mem blob header offset token next) (rest : Stream next tokens) :
      Stream offset (token :: tokens)

end Streams

/-! ## What a token does -/

/-- The addresses and sizes in a `reg` property. -/
def pairs (addressCells sizeCells : ℕ) (value : List UInt8) : List (ℕ × ℕ) :=
  (List.range (value.length / ((addressCells + sizeCells) * 4))).map fun k =>
    let entry := value.drop (k * ((addressCells + sizeCells) * 4))
    (number (entry.take (4 * addressCells)),
      number ((entry.drop (4 * addressCells)).take (4 * sizeCells)))

/-- The banks before the first empty one. -/
def leading (banks : List (ℕ × ℕ)) : List (ℕ × ℕ) := banks.takeWhile fun bank => bank.2 != 0

/-- What the walk keeps. -/
structure Progress where
  addressCells : ℕ := 2
  sizeCells : ℕ := 2
  depth : ℕ := 0
  inMemoryNode : Bool := false
  banks : List (ℕ × ℕ) := []

abbrev memoryName : List UInt8 := literal "memory".toList
abbrev regName : List UInt8 := literal "reg".toList
abbrev addressCellsName : List UInt8 := literal "#address-cells".toList
abbrev sizeCellsName : List UInt8 := literal "#size-cells".toList

/-- A property of the root sets the cell counts, one of a memory node gives banks. -/
def Progress.onProperty (v : Progress) (name value : List UInt8) : Progress :=
  if v.depth = 1 ∧ value.length = 4 then
    if name = addressCellsName then { v with addressCells := number value }
    else if name = sizeCellsName then { v with sizeCells := number value }
    else v
  else if v.inMemoryNode ∧ name = regName ∧ 0 < v.addressCells + v.sizeCells ∧
      v.addressCells ≤ 2 ∧ v.sizeCells ≤ 2 then
    { v with banks := v.banks ++ leading (pairs v.addressCells v.sizeCells value) }
  else v

/-- **What a token does**; a node that ends must have begun. -/
def Progress.on (v : Progress) : Token → Option Progress
  | .beginNode name =>
    some { v with
      depth := v.depth + 1
      inMemoryNode := v.inMemoryNode || (v.depth == 1 && named memoryName name) }
  | .endNode =>
    if v.depth = 0 then none
    else some { v with
      depth := v.depth - 1
      inMemoryNode := v.inMemoryNode && v.depth != 2 }
  | .property name value => some (v.onProperty name value)
  | .nop => some v

/-- The region of a bank. -/
def usable (bank : ℕ × ℕ) : BootMemoryRegion :=
  ⟨UInt64.ofNat bank.1, UInt64.ofNat bank.2, .usable⟩

/-- The walk keeps what it should. -/
structure Walk.Tracks (capacity : ℕ) (w : Walk) (v : Progress) : Prop where
  addressCells : w.addressCells = v.addressCells
  sizeCells : w.sizeCells = v.sizeCells
  depth : w.depth = v.depth
  inMemoryNode : w.inMemoryNode = v.inMemoryNode
  memoryDepth : v.inMemoryNode = true → w.memoryDepth = 2
  regions : w.regions = (v.banks.map usable).take capacity

variable {token : Token}

section Steps

variable {mem : ℕ → UInt8} {blob capacity : ℕ} {header : Header} {w : Walk} {v v' : Progress}

theorem Walk.Tracks.eq (h : w.Tracks capacity v) :
    w = ⟨w.offset, v.addressCells, v.sizeCells, v.depth, w.memoryDepth, v.inMemoryNode,
      (v.banks.map usable).take capacity⟩ := by
  rw [← h.addressCells, ← h.sizeCells, ← h.depth, ← h.inMemoryNode, ← h.regions]

theorem Walk.Tracks.moved (h : w.Tracks capacity v) (offset : ℕ) :
    Walk.Tracks capacity { w with offset := offset } v :=
  ⟨h.addressCells, h.sizeCells, h.depth, h.inMemoryNode, h.memoryDepth, h.regions⟩

theorem take_append_take {α : Type} (n : ℕ) (l l' : List α) :
    (l.take n ++ l').take n = (l ++ l').take n := by
  rw [List.take_append, List.take_append, List.take_take, Nat.min_self, List.length_take]
  congr 2
  omega

/-! ### The `reg` property -/

section Reg

variable {addressCells sizeCells data : ℕ} {value : List UInt8}

theorem length_pairs : (pairs addressCells sizeCells value).length =
    value.length / ((addressCells + sizeCells) * 4) := by
  rw [pairs, List.length_map, List.length_range]

theorem getElem_pairs (hdata : bytesAt mem data value.length = value) (ha : addressCells ≤ 2)
    (hs : sizeCells ≤ 2) {k : ℕ} (hk : k < (pairs addressCells sizeCells value).length) :
    (pairs addressCells sizeCells value)[k] =
      (readCells mem (data + k * ((addressCells + sizeCells) * 4)) addressCells,
        readCells mem (data + k * ((addressCells + sizeCells) * 4) + addressCells * 4)
          sizeCells) := by
  have hend : (k + 1) * ((addressCells + sizeCells) * 4) ≤ value.length := by
    rw [length_pairs] at hk
    exact Nat.mul_le_of_le_div _ _ _ hk
  rw [Nat.add_mul, Nat.one_mul] at hend
  simp only [pairs, List.getElem_map, List.getElem_range, List.drop_drop]
  rw [take_drop_of_bytesAt hdata (by omega), take_drop_of_bytesAt hdata (by omega),
    readCells_eq ha, readCells_eq hs, Nat.mul_comm 4 addressCells, Nat.add_assoc]

theorem regLoop_eq (hdata : bytesAt mem data value.length = value) (ha : addressCells ≤ 2)
    (hs : sizeCells ≤ 2) (hpos : 0 < addressCells + sizeCells)
    (hlength : value.length + 16 < word32) :
    ∀ (fuel k : ℕ) (regions : List BootMemoryRegion),
      k ≤ (pairs addressCells sizeCells value).length → regions.length ≤ capacity →
      capacity - regions.length < fuel →
      regLoop mem capacity data value.length addressCells sizeCells fuel
          (k * ((addressCells + sizeCells) * 4)) regions =
        (regions ++ (leading ((pairs addressCells sizeCells value).drop k)).map usable).take
          capacity := by
  intro fuel
  induction fuel with
  | zero => exact fun _ _ _ _ hfuel => absurd hfuel (Nat.not_lt_zero _)
  | succ fuel ih =>
    intro k regions hk hregions hfuel
    have hstride : 0 < (addressCells + sizeCells) * 4 := by omega
    have hposition : k * ((addressCells + sizeCells) * 4) ≤ value.length := by
      rw [length_pairs] at hk
      exact Nat.mul_le_of_le_div _ _ _ hk
    have hnext : k * ((addressCells + sizeCells) * 4) + (addressCells + sizeCells) * 4 =
        (k + 1) * ((addressCells + sizeCells) * 4) := (Nat.succ_mul _ _).symm
    have hmore : (k + 1) * ((addressCells + sizeCells) * 4) ≤ value.length ↔
        k < (pairs addressCells sizeCells value).length := by
      rw [length_pairs, ← Nat.le_div_iff_mul_le hstride, Nat.succ_le_iff]
    rw [regLoop]
    dsimp only
    rw [Nat.mod_eq_of_lt (by omega), hnext]
    split
    · next hroom =>
      have hlt := hmore.mp hroom
      rw [List.drop_eq_getElem_cons hlt, getElem_pairs hdata ha hs, leading, List.takeWhile_cons]
      generalize readCells mem (data + k * ((addressCells + sizeCells) * 4)) addressCells = base
      generalize readCells mem (data + k * ((addressCells + sizeCells) * 4) + addressCells * 4)
        sizeCells = size
      unfold append
      -- `append` is false for an empty bank, and the loop ends there
      by_cases hempty : size = 0
      · rw [if_pos (.inl hempty), if_neg (by simp [hempty]), List.map_nil, List.append_nil,
          List.take_of_length_le hregions]
      have hbank : ((base, size).2 != 0) = true := bne_iff_ne.mpr hempty
      rw [if_pos hbank]
      by_cases hfull : capacity ≤ regions.length
      · rw [if_pos (.inr hfull), List.take_append_of_le_length hfull,
          List.take_of_length_le hregions]
      · rw [if_neg (by omega)]
        dsimp only
        rw [ih (k + 1) _ hlt (by simp; omega) (by simp; omega), List.append_assoc]
        rfl
    · next hroom =>
      have hge := Nat.le_of_not_lt fun hlt => hroom (hmore.mpr hlt)
      rw [List.drop_of_length_le hge, leading, List.takeWhile_nil, List.map_nil,
        List.append_nil, List.take_of_length_le hregions]

theorem readProperty_tracks (h : w.Tracks capacity v) {a : ℕ} (htext : CString mem a name)
    (hspace : name.length < available) (hdata : bytesAt mem data value.length = value)
    (hlength : value.length + 16 < word32) :
    (readProperty mem capacity w data value.length a available).Tracks capacity
      (v.onProperty name value) := by
  have hequals (other : List UInt8) (hclean : (0 : UInt8) ∉ other) :
      stringEquals mem a other available = true ↔ name = other :=
    stringEquals_iff htext hspace hclean
  have hmemory := h.memoryDepth
  rw [h.eq]
  unfold readProperty Progress.onProperty
  dsimp only
  -- the cell counts are read in the root only
  by_cases hroot : v.depth = 1 ∧ value.length = 4
  · have hcells : readBe32 mem data = number value := by
      rw [readBe32_eq, ← hroot.2, hdata]
    rw [if_pos hroot, if_pos hroot, hcells]
    simp only [hequals addressCellsName (by decide), hequals sizeCellsName (by decide)]
    split_ifs
    · exact ⟨rfl, rfl, rfl, rfl, hmemory, rfl⟩
    · exact ⟨rfl, rfl, rfl, rfl, hmemory, rfl⟩
    · exact ⟨rfl, rfl, rfl, rfl, hmemory, rfl⟩
  rw [if_neg hroot, if_neg hroot]
  by_cases hreg : v.inMemoryNode = true ∧ name = regName
  · rw [if_pos (Bool.and_eq_true_iff.mpr ⟨hreg.1, (hequals _ (by decide)).mpr hreg.2⟩)]
    by_cases hcells : 0 < v.addressCells + v.sizeCells ∧ v.addressCells ≤ 2 ∧ v.sizeCells ≤ 2
    · have hstride : (v.addressCells + v.sizeCells) * 4 % word32 ≠ 0 := by
        rw [word32]
        omega
      rw [if_pos ⟨hstride, hcells.2⟩, if_pos ⟨hreg.1, hreg.2, hcells⟩]
      refine ⟨rfl, rfl, rfl, rfl, hmemory, ?_⟩
      have hloop := regLoop_eq hdata hcells.2.1 hcells.2.2 hcells.1 hlength
        (capacity - ((v.banks.map usable).take capacity).length + 1) 0
        ((v.banks.map usable).take capacity) (Nat.zero_le _) (List.length_take_le capacity _)
        (Nat.lt_succ_self _)
      rw [Nat.zero_mul, List.drop_zero] at hloop
      dsimp only
      rw [hloop, List.map_append, take_append_take]
    · rw [if_neg fun h => hcells ⟨Nat.pos_of_ne_zero fun hzero => h.1 (by rw [hzero]; rfl), h.2⟩,
        if_neg fun h => hcells h.2.2]
      exact ⟨rfl, rfl, rfl, rfl, hmemory, rfl⟩
  · rw [if_neg fun h => hreg ?_, if_neg fun h => hreg ⟨h.1, h.2.1⟩]
    · exact ⟨rfl, rfl, rfl, rfl, hmemory, rfl⟩
    · rw [Bool.and_eq_true, hequals _ (by decide)] at h
      exact h

end Reg

/-! ### One token -/

theorem nameLength_eq (htext : CString mem (blob + header.structOffset + offset) name)
    (hroom : offset + name.length < header.structSize) :
    ∀ fuel k, k ≤ name.length → name.length - k ≤ fuel →
      nameLength mem blob header offset fuel k = name.length
  | 0, k, hk, hfuel => by
    rw [nameLength]
    omega
  | fuel + 1, k, hk, hfuel => by
    rw [nameLength]
    rcases Nat.lt_or_eq_of_le hk with hlt | heq
    · rw [if_pos ⟨by omega, htext.ne_zero hlt⟩]
      exact nameLength_eq htext hroom fuel (k + 1) hlt (by omega)
    · rw [if_neg, heq]
      exact fun h => h.2 (heq ▸ htext.ends)

theorem align4_eq {n : ℕ} (h : n + 3 < word32) : align4 n = padded n := by
  rw [align4, padded, Nat.mod_eq_of_lt h]

theorem le_padded (n : ℕ) : n ≤ padded n := by
  rw [padded]
  omega

theorem beginNode_tracks (htext : CString mem (blob + header.structOffset + w.offset) name)
    (hroom : w.offset + padded (name.length + 1) + 4 ≤ header.structSize)
    (hsize : header.structSize < word32) (h : w.Tracks capacity v) (hdepth : v.depth + 1 < word32)
    (hon : v.on (.beginNode name) = some v') :
    ∃ w', beginNode mem blob header w = (true, w') ∧
      w'.offset = w.offset + padded (name.length + 1) ∧ w'.Tracks capacity v' := by
  obtain rfl := Option.some.inj hon
  have hpadded := le_padded (name.length + 1)
  have hdepth' : (w.depth + 1) % word32 = v.depth + 1 := by
    rw [h.depth, Nat.mod_eq_of_lt hdepth]
  unfold beginNode
  dsimp only
  rw [nameLength_eq htext (by omega) _ 0 (Nat.zero_le _) (by omega), if_neg (by omega),
    nodeNameIs_eq htext, align4_eq (by omega), hdepth', Nat.mod_eq_of_lt (by omega),
    h.inMemoryNode]
  split
  · next hmemory =>
    obtain ⟨hout, hone, hnamed⟩ := hmemory
    refine ⟨_, rfl, rfl, h.addressCells, h.sizeCells, rfl, ?_, fun _ => hone, h.regions⟩
    have hfirst : v.depth = 1 := by omega
    simp [hfirst, hnamed]
  · next hmemory =>
    have hsame : (v.inMemoryNode || (v.depth == 1 && named memoryName name)) = v.inMemoryNode := by
      grind
    rw [hsame]
    exact ⟨_, rfl, rfl, h.addressCells, h.sizeCells, rfl, rfl, h.memoryDepth, h.regions⟩

theorem endNode_tracks (h : w.Tracks capacity v) (hon : v.on .endNode = some v') :
    ∃ w', endNode w = (true, w') ∧ w'.offset = w.offset ∧ w'.Tracks capacity v' := by
  obtain ⟨hdepth, hv⟩ := Option.ite_none_left_eq_some.mp hon
  obtain rfl := Option.some.inj hv
  have hmemory := h.memoryDepth
  rw [h.eq]
  unfold endNode
  dsimp only
  by_cases hends : v.inMemoryNode = true ∧ v.depth = w.memoryDepth
  · rw [if_pos hends, if_neg hdepth]
    have htwo : v.depth = 2 := hends.2.trans (hmemory hends.1)
    refine ⟨_, rfl, rfl, rfl, rfl, rfl, ?_, fun hinside => ?_, rfl⟩
    · rw [htwo, bne_self_eq_false, Bool.and_false]
    · rw [htwo, bne_self_eq_false, Bool.and_false] at hinside
      cases hinside
  · rw [if_neg hends, if_neg hdepth]
    have hsame : (v.inMemoryNode && v.depth != 2) = v.inMemoryNode := by
      cases hinside : v.inMemoryNode with
      | false => rfl
      | true =>
        rw [Bool.true_and, bne_iff_ne]
        exact fun htwo => hends ⟨hinside, htwo.trans (hmemory hinside).symm⟩
    rw [hsame]
    exact ⟨_, rfl, rfl, rfl, rfl, rfl, rfl, hmemory, rfl⟩

theorem property_tracks {value : List UInt8} {nameOffset : ℕ}
    (hlength : readBe32 mem (blob + header.structOffset + w.offset) = value.length)
    (hoffset : readBe32 mem (blob + header.structOffset + w.offset + 4) = nameOffset)
    (htext : CString mem (blob + header.stringsOffset + nameOffset) name)
    (hinside : nameOffset + name.length < header.stringsSize)
    (hdata : bytesAt mem (blob + header.structOffset + (w.offset + 8)) value.length = value)
    (hroom : w.offset + 8 + padded value.length + 4 ≤ header.structSize)
    (hsize : header.structSize < word32) (hstart : 4 ≤ w.offset) (h : w.Tracks capacity v) :
    ∃ w', property mem blob header capacity w = (true, w') ∧
      w'.offset = w.offset + 8 + padded value.length ∧
      w'.Tracks capacity (v.onProperty name value) := by
  have hpadded := le_padded value.length
  unfold property
  dsimp only
  rw [Nat.mod_eq_of_lt (by omega), if_neg (by omega), hlength, hoffset, if_neg (by omega),
    align4_eq (by omega), Nat.mod_eq_of_lt (by omega)]
  have hspace : name.length < header.stringsSize - nameOffset := by omega
  exact ⟨_, rfl, rfl, (readProperty_tracks h htext hspace hdata (by omega)).moved _⟩

/-- The walk reads a token, follows it and goes on behind it. -/
theorem walkStep_tracks {next : ℕ} (htoken : TokenAt mem blob header w.offset token next)
    (hnext : next + 4 ≤ header.structSize) (hsize : header.structSize < word32)
    (h : w.Tracks capacity v) (hdepth : v.depth + 1 < word32) (hon : v.on token = some v') :
    ∃ w', walkStep mem blob header capacity w = (true, w') ∧ w'.offset = next ∧
      w'.Tracks capacity v' := by
  have hroom : w.offset + 4 ≤ header.structSize := by
    cases htoken <;> omega
  have hread := h.moved (w.offset + 4)
  unfold walkStep
  rw [Nat.mod_eq_of_lt (by omega), if_pos hroom]
  dsimp only
  cases htoken with
  | beginNode token text =>
    rw [token, if_neg (by decide), if_neg (by decide), if_pos rfl]
    exact beginNode_tracks text hnext hsize hread hdepth hon
  | endNode token =>
    rw [token, if_neg (by decide), if_neg (by decide), if_neg (by decide), if_pos rfl]
    exact endNode_tracks hread hon
  | property token length offsetRead text inside data =>
    obtain rfl := Option.some.inj hon
    rw [token, if_neg (by decide), if_neg (by decide), if_neg (by decide), if_neg (by decide),
      if_pos rfl]
    exact property_tracks length offsetRead text inside data hnext hsize (Nat.le_add_left _ _) hread
  | nop token =>
    obtain rfl := Option.some.inj hon
    rw [token, if_neg (by decide), if_pos rfl]
    exact ⟨_, rfl, rfl, hread⟩

theorem walkStep_end (hroom : w.offset + 4 ≤ header.structSize)
    (htoken : readBe32 mem (blob + header.structOffset + w.offset) = tokenEnd)
    (hsize : header.structSize < word32) :
    walkStep mem blob header capacity w = (false, { w with offset := w.offset + 4 }) := by
  unfold walkStep
  rw [Nat.mod_eq_of_lt (by omega), if_pos hroom]
  dsimp only
  rw [htoken, if_pos rfl]

/-! ### The whole stream -/

theorem TokenAt.le {next : ℕ} (h : TokenAt mem blob header offset token next) :
    offset + 4 ≤ next := by
  cases h <;> omega

theorem Stream.room {tokens : List Token} (h : Stream mem blob header offset tokens) :
    offset + 4 * (tokens.length + 1) ≤ header.structSize := by
  induction h with
  | finish room token => exact room
  | cons first rest ih =>
    have hle := first.le
    rw [List.length_cons]
    omega

theorem Progress.on_depth (h : v.on token = some v') : v'.depth ≤ v.depth + 1 := by
  cases token with
  | beginNode name =>
    obtain rfl := Option.some.inj h
    exact Nat.le_refl _
  | endNode =>
    obtain rfl := Option.some.inj (Option.ite_none_left_eq_some.mp h).2
    exact Nat.le_trans (Nat.sub_le _ _) (Nat.le_succ _)
  | property name value =>
    obtain rfl := Option.some.inj h
    rw [Progress.onProperty]
    split_ifs <;> exact Nat.le_succ _
  | nop =>
    obtain rfl := Option.some.inj h
    exact Nat.le_succ _

/-- **The walk over a stream is a fold over its tokens.** -/
theorem walkLoop_stream (hsize : header.structSize < word32) {tokens : List Token} {fuel : ℕ}
    (hstream : Stream mem blob header w.offset tokens) (h : w.Tracks capacity v)
    (hdepth : v.depth + tokens.length < word32) (hfold : tokens.foldlM Progress.on v = some v')
    (hfuel : tokens.length < fuel) :
    ∃ w', walkLoop mem blob header capacity fuel w = some w' ∧ w'.Tracks capacity v' := by
  induction tokens generalizing w v fuel with
  | nil =>
    obtain ⟨fuel, rfl⟩ := Nat.exists_eq_add_one_of_ne_zero (Nat.ne_of_gt hfuel)
    obtain rfl := Option.some.inj hfold
    cases hstream with
    | finish room token =>
      rw [walkLoop, walkStep_end room token hsize]
      exact ⟨_, rfl, h.moved _⟩
  | cons token tokens ih =>
    obtain ⟨fuel, rfl⟩ := Nat.exists_eq_add_one_of_ne_zero (Nat.ne_zero_of_lt hfuel)
    rw [List.foldlM_cons] at hfold
    obtain ⟨v₁, hon, hfold⟩ := Option.bind_eq_some_iff.mp hfold
    rw [List.length_cons] at hdepth hfuel
    cases hstream with
    | cons first rest =>
      have hroom := rest.room
      obtain ⟨w₁, hstep, rfl, h₁⟩ :=
        walkStep_tracks first (by omega) hsize h (by omega) hon
      have hdepth₁ := Progress.on_depth hon
      rw [walkLoop, hstep]
      exact ih rest h₁ (by omega) hfold (by omega)

theorem foldlM_filter_nop (tokens : List Token) (v : Progress) :
    (tokens.filter (· ≠ .nop)).foldlM Progress.on v = tokens.foldlM Progress.on v := by
  induction tokens generalizing v with
  | nil => rfl
  | cons token tokens ih =>
    by_cases hnop : token = .nop
    · rw [List.filter_cons_of_neg (by simp [hnop]), ih, hnop, List.foldlM_cons]
      rfl
    · rw [List.filter_cons_of_pos (by simp [hnop]), List.foldlM_cons, List.foldlM_cons]
      exact congrArg _ (funext ih)

end Steps

end ShirleysOS.Boot
