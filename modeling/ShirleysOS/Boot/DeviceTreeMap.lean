import Mathlib.Data.List.TakeWhile
import ShirleysOS.Boot.DeviceTreeTokens

/-!
# The memory map of a device tree

A device tree is a root with properties and nodes below it. Its memory is what the `reg` properties
of the children of the root that are named `memory` say, and its reservations are the entries of
the reservation block. `fdt_memory_map` gives up a `reg` property at its first empty bank, and it
reads the `reg` properties of all nodes below a memory node. Source: `platform/firmware/fdt.cpp`.
-/

namespace ShirleysOS.Boot

open Memory

/-! ## Trees -/

/-- Sibling nodes in the order of the document, each with its properties and the nodes below it. -/
inductive Nodes
  | none
  | node (name : List UInt8) (properties : List (List UInt8 × List UInt8))
      (children siblings : Nodes)

/-- The root of a device tree. -/
structure Tree where
  name : List UInt8 := []
  properties : List (List UInt8 × List UInt8)
  children : Nodes

def propertyTokens (properties : List (List UInt8 × List UInt8)) : List Token :=
  properties.map fun p => .property p.1 p.2

def Nodes.tokens : Nodes → List Token
  | .none => []
  | .node name properties children siblings =>
    .beginNode name ::
      (propertyTokens properties ++ (children.tokens ++ .endNode :: siblings.tokens))

def Tree.tokens (root : Tree) : List Token :=
  .beginNode root.name :: (propertyTokens root.properties ++ (root.children.tokens ++ [.endNode]))

/-- The values of the `reg` properties. -/
def regs (properties : List (List UInt8 × List UInt8)) : List (List UInt8) :=
  (properties.filter fun p => p.1 = regName).map Prod.snd

/-- The values of all `reg` properties of nodes and the nodes below them. -/
def Nodes.regs : Nodes → List (List UInt8)
  | .none => []
  | .node _ properties children siblings => Boot.regs properties ++ (children.regs ++ siblings.regs)

/-- What the nodes named `memory` give, by their `reg` properties and those of the nodes below. -/
def Nodes.memory (give : List (List UInt8) → List (List UInt8) → List (ℕ × ℕ)) :
    Nodes → List (ℕ × ℕ)
  | .none => []
  | .node name properties children siblings =>
    (if named memoryName name then give (Boot.regs properties) children.regs else []) ++
      siblings.memory give

/-- A cell count that properties give, when it was `count` before. -/
def cells (name : List UInt8) (properties : List (List UInt8 × List UInt8)) (count : ℕ := 2) : ℕ :=
  properties.foldl (fun n p => if p.1 = name ∧ p.2.length = 4 then number p.2 else n) count

section Banks

variable (root : Tree)

/-- The addresses and sizes in a `reg` property below the root. -/
def Tree.pairs (value : List UInt8) : List (ℕ × ℕ) :=
  Boot.pairs (cells addressCellsName root.properties) (cells sizeCellsName root.properties) value

/-- **The memory of the tree**: the banks that are not empty, of the memory nodes themselves. -/
def Tree.banks : List BootMemoryRegion :=
  (root.children.memory fun own _ =>
    own.flatMap fun value => (root.pairs value).filter fun bank => bank.2 != 0).map usable

/-- The memory that the walk takes: in each `reg` property, of the memory nodes and of all nodes
below them, the banks before the first empty one. -/
def Tree.taken : List BootMemoryRegion :=
  (root.children.memory fun own below =>
    (own ++ below).flatMap fun value => leading (root.pairs value)).map usable

/-- The `reg` properties of memory nodes have no empty bank before one that is not empty, and those
below memory nodes have none that is not empty at their beginning. -/
def Tree.Regular : Nodes → Prop
  | .none => True
  | .node name properties children siblings =>
    (named memoryName name = true →
      (∀ value ∈ regs properties,
        (root.pairs value).Pairwise fun bank later => later.2 ≠ 0 → bank.2 ≠ 0) ∧
      ∀ value ∈ children.regs, ∀ bank ∈ (root.pairs value).head?, bank.2 = 0) ∧
      Tree.Regular siblings

variable {root}

theorem leading_eq_filter {banks : List (ℕ × ℕ)}
    (h : banks.Pairwise fun bank later => later.2 ≠ 0 → bank.2 ≠ 0) :
    leading banks = banks.filter fun bank => bank.2 != 0 := by
  induction h with
  | nil => rfl
  | @cons bank banks hbank _ ih =>
    rw [leading] at ih ⊢
    by_cases hempty : bank.2 = 0
    · have hnone : ∀ later ∈ banks, ¬(later.2 != 0) = true := fun later hlater hfull =>
        hbank later hlater (bne_iff_ne.mp hfull) hempty
      rw [List.takeWhile_cons_of_neg (by simp [hempty]), List.filter_cons_of_neg (by simp [hempty]),
        List.filter_eq_nil_iff.mpr hnone]
    · rw [List.takeWhile_cons_of_pos (by simp [hempty]), List.filter_cons_of_pos (by simp [hempty]),
        ih]

theorem leading_eq_nil {banks : List (ℕ × ℕ)} (h : ∀ bank ∈ banks.head?, bank.2 = 0) :
    leading banks = [] := by
  cases banks with
  | nil => rfl
  | cons bank banks => exact List.takeWhile_cons_of_neg (by simp [h bank rfl])

/-- The walk takes the banks of a regular tree. -/
theorem Tree.taken_eq_banks (h : root.Regular root.children) : root.taken = root.banks := by
  rw [Tree.taken, Tree.banks]
  congr 1
  generalize root.children = nodes at h
  induction nodes with
  | none => rfl
  | node name properties children siblings _ ih =>
    rw [Nodes.memory, Nodes.memory, ih h.2]
    congr 1
    split
    · next hname =>
      obtain ⟨hown, hbelow⟩ := h.1 hname
      rw [List.flatMap_append, List.flatMap_congr fun value hvalue =>
        leading_eq_filter (hown value hvalue), List.flatMap_eq_nil_iff.mpr fun value hvalue =>
        leading_eq_nil (hbelow value hvalue), List.append_nil]
    · rfl

end Banks

/-- The regions of the reservations that are not empty. -/
def reserved (entries : List (ℕ × ℕ)) : List BootMemoryRegion :=
  (entries.filter fun entry => entry.2 != 0).map fun entry =>
    ⟨UInt64.ofNat entry.1, UInt64.ofNat entry.2, .reserved⟩

/-! ## Blobs -/

section Blobs

variable (mem : ℕ → UInt8) (blob : ℕ)

/-- From an offset on, a block of a given end holds reservations up to a pair of zeros. -/
inductive Reservations (limit : ℕ) : ℕ → List (ℕ × ℕ) → Prop
  | finish {offset : ℕ} (room : offset + 16 ≤ limit)
      (zeros : readBe64 mem (blob + offset) = 0 ∧ readBe64 mem (blob + offset + 8) = 0) :
      Reservations limit offset []
  | cons {offset address length : ℕ} {entries : List (ℕ × ℕ)} (room : offset + 16 ≤ limit)
      (start : readBe64 mem (blob + offset) = address)
      (size : readBe64 mem (blob + offset + 8) = length)
      (nonzero : ¬ (address = 0 ∧ length = 0)) (rest : Reservations limit (offset + 16) entries) :
      Reservations limit offset ((address, length) :: entries)

/-- **A blob holds a tree and reservations.** Its header is sane, its structure block holds the
tokens of the tree, with fillers between them, and the cell counts are 1 or 2. -/
structure Flattened (root : Tree) (entries : List (ℕ × ℕ)) : Prop where
  valid : fdtValid mem blob = true
  tree : ∃ tokens, Stream mem blob (readHeader mem blob) 0 tokens ∧
    tokens.filter (· ≠ .nop) = root.tokens
  addressCells : cells addressCellsName root.properties ∈ [1, 2]
  sizeCells : cells sizeCellsName root.properties ∈ [1, 2]
  reservations : Reservations mem blob (readHeader mem blob).totalSize
    (readHeader mem blob).reservationOffset entries

end Blobs

/-! ## The walk over a tree -/

section Walking

variable {u v w : Progress} {token : Token} {tokens tokens' : List Token}

/-- The walk over tokens leads from one state to another. -/
def Progress.Leads (v : Progress) (tokens : List Token) (w : Progress) : Prop :=
  tokens.foldlM Progress.on v = some w

theorem Progress.Leads.cons (hon : v.on token = some u) (h : u.Leads tokens w) :
    v.Leads (token :: tokens) w := by
  rw [Leads, List.foldlM_cons, hon]
  exact h

theorem Progress.Leads.append (h : v.Leads tokens u) (h' : u.Leads tokens' w) :
    v.Leads (tokens ++ tokens') w := by
  rw [Leads, List.foldlM_append, show tokens.foldlM Progress.on v = some u from h]
  exact h'

/-- What the walk does with `reg` properties. -/
def Progress.add (v : Progress) (values : List (List UInt8)) : Progress :=
  { v with
    banks := v.banks ++ if v.inMemoryNode then
      values.flatMap fun value => leading (pairs v.addressCells v.sizeCells value) else [] }

/-- The cell counts are such that the walk reads `reg` properties. -/
def Progress.Readable (v : Progress) : Prop :=
  0 < v.addressCells + v.sizeCells ∧ v.addressCells ≤ 2 ∧ v.sizeCells ≤ 2

theorem Progress.add_of_nil {values : List (List UInt8)}
    (h : v.inMemoryNode = true → values = []) : v.add values = v := by
  have hnone : (if v.inMemoryNode then
      values.flatMap fun value => leading (pairs v.addressCells v.sizeCells value)
      else []) = [] := by
    split
    · next hinside => rw [h hinside, List.flatMap_nil]
    · rfl
  rw [Progress.add, hnone, List.append_nil]

theorem Progress.add_append (values values' : List (List UInt8)) :
    v.add (values ++ values') = (v.add values).add values' := by
  unfold Progress.add
  split <;> simp

theorem Progress.onProperty_eq (hdepth : v.depth ≠ 1) (hcells : v.Readable)
    (p : List UInt8 × List UInt8) : v.onProperty p.1 p.2 = v.add (regs [p]) := by
  unfold Progress.onProperty
  rw [if_neg fun h => hdepth h.1]
  by_cases hreg : v.inMemoryNode = true ∧ p.1 = regName
  · rw [if_pos ⟨hreg.1, hreg.2, hcells⟩]
    simp [Progress.add, regs, hreg]
  · rw [if_neg fun h => hreg ⟨h.1, h.2.1⟩, Progress.add_of_nil]
    intro hinside
    have hname : p.1 ≠ regName := fun hname => hreg ⟨hinside, hname⟩
    simp [regs, hname]

/-- Below the root, only `reg` properties do something. -/
theorem leads_properties (hdepth : v.depth ≠ 1) (hcells : v.Readable)
    (properties : List (List UInt8 × List UInt8)) :
    v.Leads (propertyTokens properties) (v.add (regs properties)) := by
  induction properties generalizing v with
  | nil => exact congrArg some (Progress.add_of_nil fun _ => rfl).symm
  | cons p properties ih =>
    have hregs : regs (p :: properties) = regs [p] ++ regs properties := by
      rw [regs, regs, regs, ← List.map_append, ← List.filter_append, List.singleton_append]
    rw [hregs, Progress.add_append]
    exact .cons (congrArg some (Progress.onProperty_eq hdepth hcells p)) (ih hdepth hcells)

/-- Nodes below the children of the root: all their `reg` properties are read in a memory node. -/
theorem leads_below (hdepth : 2 ≤ v.depth) (hcells : v.Readable) (nodes : Nodes) :
    v.Leads nodes.tokens (v.add nodes.regs) := by
  induction nodes generalizing v with
  | none => exact congrArg some (Progress.add_of_nil fun _ => rfl).symm
  | node name properties children siblings ihchildren ihsiblings =>
    have hbegin : v.on (.beginNode name) = some { v with depth := v.depth + 1 } := by
      have hone : (v.depth == 1) = false := beq_eq_false_iff_ne.mpr (by omega)
      rw [Progress.on, hone, Bool.false_and, Bool.or_false]
    have hend (w : Progress) (hw : w.depth = v.depth + 1) :
        w.on .endNode = some { w with depth := v.depth } := by
      have htwo : (w.depth != 2) = true := bne_iff_ne.mpr (by omega)
      rw [Progress.on, if_neg (by omega), htwo, Bool.and_true, hw, Nat.add_sub_cancel]
    have hdeeper : 2 ≤ v.depth + 1 := Nat.le_succ_of_le hdepth
    rw [Nodes.regs, Progress.add_append, Progress.add_append]
    refine .cons hbegin (.append (leads_properties ?_ ?_ properties)
      (.append (ihchildren ?_ ?_) (.cons (hend _ rfl) (ihsiblings ?_ ?_))))
    exacts [Nat.ne_of_gt hdeeper, hcells, hdeeper, hcells, hdepth, hcells]

theorem leads_children (hdepth : v.depth = 1) (hout : v.inMemoryNode = false)
    (hcells : v.Readable) (nodes : Nodes) :
    v.Leads nodes.tokens
      { v with
        banks := v.banks ++ nodes.memory fun own below =>
          (own ++ below).flatMap fun value =>
            leading (pairs v.addressCells v.sizeCells value) } := by
  induction nodes generalizing v with
  | none => exact congrArg some (by simp [Nodes.memory])
  | node name properties children siblings _ ihsiblings =>
    have hbegin : v.on (.beginNode name) =
        some { v with depth := 2, inMemoryNode := named memoryName name } := by
      rw [Progress.on, hdepth, hout, beq_self_eq_true, Bool.true_and, Bool.false_or]
    have hend (w : Progress) (hw : w.depth = 2) :
        w.on .endNode = some { w with depth := v.depth, inMemoryNode := v.inMemoryNode } := by
      rw [Progress.on, hw, hdepth, hout, if_neg (by decide), bne_self_eq_false, Bool.and_false]
    rw [Nodes.memory, ← List.append_assoc]
    refine .cons hbegin (.append (leads_properties (Nat.succ_ne_self 1) ?_ properties)
      (.append (leads_below (Nat.le_refl 2) ?_ children) (.cons (hend _ rfl) ?_)))
    · exact hcells
    · exact hcells
    · rw [← Progress.add_append]
      exact ihsiblings hdepth hout hcells

/-- The properties of the root give the cell counts. -/
theorem leads_root (hdepth : v.depth = 1) (hout : v.inMemoryNode = false)
    (properties : List (List UInt8 × List UInt8)) :
    v.Leads (propertyTokens properties)
      { v with
        addressCells := cells addressCellsName properties v.addressCells
        sizeCells := cells sizeCellsName properties v.sizeCells } := by
  induction properties generalizing v with
  | nil => rfl
  | cons p properties ih =>
    have hone : v.onProperty p.1 p.2 =
        { v with
          addressCells := cells addressCellsName [p] v.addressCells
          sizeCells := cells sizeCellsName [p] v.sizeCells } := by
      have hdistinct : addressCellsName ≠ sizeCellsName := by decide
      obtain ⟨addressCells, sizeCells, depth, inside, banks⟩ := v
      obtain rfl : depth = 1 := hdepth
      obtain rfl : inside = false := hout
      simp only [Progress.onProperty, cells, List.foldl_cons, List.foldl_nil]
      by_cases hlength : p.2.length = 4
      · by_cases haddress : p.1 = addressCellsName
        · simp [hlength, haddress, hdistinct]
        · by_cases hsize : p.1 = sizeCellsName <;> simp [hlength, haddress, hsize, hdistinct.symm]
      · simp [hlength]
    exact .cons (congrArg some hone) (ih hdepth hout)

/-- **The walk over a tree.** -/
theorem Tree.leads (root : Tree) (haddress : cells addressCellsName root.properties ∈ [1, 2])
    (hsize : cells sizeCellsName root.properties ∈ [1, 2]) :
    ∃ w : Progress, Progress.Leads {} root.tokens w ∧ w.banks.map usable = root.taken := by
  rw [List.mem_pair] at haddress hsize
  refine ⟨_, .cons rfl (.append (leads_root rfl rfl root.properties)
    (.append (leads_children rfl rfl ?_ root.children) (.cons rfl rfl))), rfl⟩
  rw [Progress.Readable]
  dsimp only
  omega

end Walking

/-! ## The whole map -/

section Map

variable {mem : ℕ → UInt8} {blob capacity fuel offset limit : ℕ} {header : Header} {root : Tree}
  {entries : List (ℕ × ℕ)}

theorem Reservations.room (h : Reservations mem blob limit offset entries) :
    offset + 16 * (entries.length + 1) ≤ limit := by
  induction h with
  | finish room zeros => exact room
  | cons room start size nonzero rest ih =>
    rw [List.length_cons]
    omega

/-- A full table is left as it is; otherwise the reservations follow. -/
theorem readReservations_eq (hlimit : header.totalSize < word32)
    (h : Reservations mem blob header.totalSize offset entries) :
    ∀ (fuel : ℕ) (regions : List BootMemoryRegion), regions.length ≤ capacity →
      entries.length < fuel →
      readReservations mem blob header capacity fuel offset regions =
        some ((regions ++ reserved entries).take capacity) := by
  induction h with
  | finish room zeros =>
    intro fuel regions hregions hfuel
    obtain ⟨fuel, rfl⟩ := Nat.exists_eq_add_one_of_ne_zero (Nat.ne_zero_of_lt hfuel)
    rw [readReservations]
    dsimp only
    rw [if_pos zeros, ite_self, reserved, List.filter_nil, List.map_nil, List.append_nil,
      List.take_of_length_le hregions]
  | @cons offset address length entries room start size nonzero rest ih =>
    intro fuel regions hregions hfuel
    obtain ⟨fuel, rfl⟩ := Nat.exists_eq_add_one_of_ne_zero (Nat.ne_zero_of_lt hfuel)
    rw [List.length_cons] at hfuel
    rw [readReservations]
    dsimp only
    rw [start, size, if_neg nonzero, Nat.mod_eq_of_lt (by omega)]
    by_cases hfull : regions.length < capacity
    · rw [if_pos ⟨room, hfull⟩, ih fuel _ (append_length_le hregions _ _ _) (by omega)]
      by_cases hempty : length = 0
      · simp [append, reserved, hempty]
      · simp [append, reserved, hempty, Nat.not_le.mpr hfull]
    · rw [if_neg fun h => hfull h.2, List.take_append_of_le_length (Nat.le_of_not_lt hfull),
        List.take_of_length_le hregions]

/-- **The regions found in a tree**, as many as the table takes. -/
theorem fdtMemoryMap_flattened (h : Flattened mem blob root entries)
    (hfuel : (readHeader mem blob).totalSize < fuel) :
    fdtMemoryMap fuel mem blob capacity =
      some ((root.taken ++ reserved entries).take capacity) := by
  obtain ⟨hvalid, ⟨tokens, hstream, htokens⟩, haddress, hsize, hreservations⟩ := h
  rw [fdtValid, Bool.and_eq_true, decide_eq_true_eq] at hvalid
  obtain ⟨hblob, hsane⟩ := hvalid
  have htotal : (readHeader mem blob).totalSize < word32 := readBe32_lt
  have hstruct : (readHeader mem blob).structSize ≤ (readHeader mem blob).totalSize := by
    have hheader := of_decide_eq_true hsane
    omega
  have hroom := hstream.room
  have hspace := hreservations.room
  rw [fdtMemoryMap]
  dsimp only
  rw [hsane, Bool.not_true, if_neg Bool.false_ne_true]
  by_cases hcapacity : capacity = 0
  · rw [if_pos (.inr hcapacity), hcapacity, List.take_zero]
  rw [if_neg (not_or.mpr ⟨hblob, hcapacity⟩)]
  obtain ⟨v, hleads, htaken⟩ := root.leads haddress hsize
  rw [Progress.Leads, ← htokens, foldlM_filter_nop] at hleads
  have hstart : Walk.Tracks capacity {} {} :=
    ⟨rfl, rfl, rfl, rfl, fun h => absurd h Bool.false_ne_true, List.take_nil.symm⟩
  obtain ⟨w, hwalk, htracks⟩ := walkLoop_stream (hstruct.trans_lt htotal) hstream hstart
    (by dsimp only; omega) hleads (show tokens.length < fuel by omega)
  rw [hwalk]
  dsimp only
  rw [htracks.regions, htaken, readReservations_eq htotal hreservations _ _
    (List.length_take_le _ _) (by omega), take_append_take]

/-- **The memory map is that of the tree**, if the tree is regular and the table has room. -/
theorem fdtMemoryMap_complete (h : Flattened mem blob root entries)
    (hfuel : (readHeader mem blob).totalSize < fuel) (hregular : root.Regular root.children)
    (hcapacity : (root.banks ++ reserved entries).length ≤ capacity) :
    fdtMemoryMap fuel mem blob capacity = some (root.banks ++ reserved entries) := by
  rw [fdtMemoryMap_flattened h hfuel, Tree.taken_eq_banks hregular,
    List.take_of_length_le hcapacity]

/-- **A table that is too small gets the first regions of the map**, and no others. -/
theorem fdtMemoryMap_take (h : Flattened mem blob root entries)
    (hfuel : (readHeader mem blob).totalSize < fuel) {large : ℕ} (hle : capacity ≤ large) :
    fdtMemoryMap fuel mem blob capacity =
      (fdtMemoryMap fuel mem blob large).map fun regions => regions.take capacity := by
  rw [fdtMemoryMap_flattened h hfuel, fdtMemoryMap_flattened h hfuel, Option.map_some,
    List.take_take, Nat.min_eq_left hle]

end Map

/-! ### A tree with two banks -/

/-- Two banks of 4 KiB, at 0 and at 64 KiB, or an empty one and one at 64 KiB. -/
def twoBanks (full : Bool) : List UInt8 :=
  List.replicate 14 0 ++ [if full then 16 else 0, 0] ++
    [0, 0, 0, 0, 0, 1, 0, 0, 0, 0, 0, 0, 0, 0, 16, 0]

/-- A tree with a memory node. -/
def bankTree (full : Bool) : Tree where
  properties := []
  children := .node memoryName [(regName, twoBanks full)] .none .none

theorem flattened_bankTree (full : Bool) :
    Flattened (bankBlob full) 4096 (bankTree full) [(0, 4096)] := by
  refine ⟨?_, ⟨(bankTree full).tokens, .cons (.beginNode ?_ ⟨?_, ?_, ?_⟩)
    (.cons (.beginNode ?_ ⟨?_, ?_, ?_⟩) (.cons (.property ?_ ?_ rfl ⟨?_, ?_, ?_⟩ ?_ ?_)
      (.cons (.endNode ?_) (.cons (.endNode ?_) (.finish ?_ ?_))))), ?_⟩,
    by simp [cells, bankTree], by simp [cells, bankTree], .cons ?_ ?_ ?_ ?_ (.finish ?_ ?_)⟩
  all_goals cases full <;> decide +kernel

theorem fdtMemoryMap_complete_bankTree :
    fdtMemoryMap 153 (bankBlob true) 4096 3 =
      some ((bankTree true).banks ++ reserved [(0, 4096)]) :=
  fdtMemoryMap_complete (flattened_bankTree true) (by decide +kernel)
    ⟨fun _ => ⟨by decide +kernel, nofun⟩, trivial⟩ (by decide +kernel)

theorem fdtMemoryMap_take_bankTree :
    fdtMemoryMap 153 (bankBlob true) 4096 1 =
      (fdtMemoryMap 153 (bankBlob true) 4096 8).map fun regions => regions.take 1 :=
  fdtMemoryMap_take (flattened_bankTree true) (by decide +kernel) (by decide)

/-- The second bank is lost behind an empty one. -/
theorem fdtMemoryMap_emptyBank :
    Flattened (bankBlob false) 4096 (bankTree false) [(0, 4096)] ∧
      (bankTree false).banks = [⟨65536, 4096, .usable⟩] ∧
      fdtMemoryMap 153 (bankBlob false) 4096 8 = some [⟨0, 4096, .reserved⟩] :=
  ⟨flattened_bankTree false, by decide +kernel, by decide +kernel⟩

end ShirleysOS.Boot
