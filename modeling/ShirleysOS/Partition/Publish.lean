import Mathlib.Data.List.Nodup
import ShirleysOS.Lib.Lists
import ShirleysOS.Partition.Reading
import ShirleysOS.Text.Strings

/-!
# Partition numbers and names

A disk publishes its partitions as devices: the name of each is the name of the disk and the number
of the partition. The names are different when the numbers are. The numbers of the primary
partitions and of a GUID partition table come from the place in their table; those of logical
partitions are counted from five along the chain of their extended partition, for each extended
partition anew. Source: `kernel/fs/partition.cpp`, `kernel/device/device.cpp`,
`kernel/format/number.cpp`.
-/

namespace ShirleysOS.Partition

open Lib Storage

/-! ## Names -/

/-- The loop of `to_decimal`: the digits of a number, the lowest first. -/
def decimalDigits : ℕ → ℕ → List UInt8
  | 0, _ => []
  | fuel + 1, value =>
    UInt8.ofNat (48 + value % 10) :: if value / 10 = 0 then [] else decimalDigits fuel (value / 10)

/-- `to_decimal`: `none` when it returns zero. A number of 64 bits has at most 20 digits. -/
def toDecimal (capacity value : ℕ) : Option (List UInt8) :=
  let digits := decimalDigits 20 value
  if digits.length + 1 > capacity then none else some digits.reverse

/-- `device::max_name_length`. -/
abbrev maxDeviceName : ℕ := 31

/-- The name ends in a digit. -/
def endsInDigit (name : List UInt8) : Bool :=
  match name.getLast? with
  | none => false
  | some c => 48 ≤ c && c ≤ 57

/-- `partition_name`: `none` when the name does not fit. -/
def partitionName (disk : List UInt8) (number capacity : ℕ) : Option (List UInt8) :=
  match toDecimal 12 number with
  | none => none
  | some digits =>
    match Text.copy capacity disk with
    | none => none
    | some name =>
      match if endsInDigit disk then Text.append capacity name [0x70] else some name with
      | none => none
      | some name => Text.append capacity name digits

/-! ## Publishing -/

/-- `device::Status`, as far as registering goes. -/
inductive Status
  | ok
  | invalidArgument
  | duplicateName
  | registryFull
deriving DecidableEq, Repr

/-- `device::max_devices`. -/
abbrev maxRegistered : ℕ := 64

/-- `register_device` of a device of that name, with the names registered. -/
def registerDevice (names : List (List UInt8)) (name : List UInt8) :
    Status × List (List UInt8) :=
  if name = [] ∨ maxDeviceName < name.length then (.invalidArgument, names)
  else if maxRegistered ≤ names.length then (.registryFull, names)
  else if name ∈ names then (.duplicateName, names)
  else (.ok, names ++ [name])

/-- A `Slot` that is used: the disk, the name of the device and its window. -/
structure Slot where
  disk : List UInt8
  name : List UInt8
  window : Window
deriving DecidableEq, Repr

/-- The names of the registered devices, in order, and the slots for partitions. -/
structure Registry where
  names : List (List UInt8)
  slots : List (Option Slot)
deriving DecidableEq, Repr

/-- The loop of `publish`, with the number published so far. -/
def publishLoop (disk : List UInt8) : List Entry → Registry → ℕ → ℕ × Registry
  | [], r, published => (published, r)
  | e :: rest, r, published =>
    match r.slots.findIdx? Option.isNone with
    | none => (published, r)
    | some i =>
      match partitionName disk e.number (maxDeviceName + 1) with
      | none => publishLoop disk rest r published
      | some name =>
        match registerDevice r.names name with
        | (.ok, names) =>
          publishLoop disk rest ⟨names, r.slots.set i (some ⟨disk, name, e.window⟩)⟩
            (published + 1)
        | _ => publishLoop disk rest r published

/-- `publish` of a disk for which `read` returned `ok` and `table`. -/
def publish (disk : List UInt8) (isBlockDevice : Bool) (ok : Bool) (table : Table)
    (r : Registry) : ℕ × Registry :=
  if !isBlockDevice then (0, r)
  else if !ok then (0, r)
  else publishLoop disk table.entries r 0

/-! ## Different numbers have different names -/

/-- The number that digits stand for, the lowest first. -/
def decimalValue : List UInt8 → ℕ
  | [] => 0
  | c :: digits => (c.toNat - 48) + 10 * decimalValue digits

theorem decimalValue_digits {fuel value : ℕ} (h : (decimalDigits fuel value).length < fuel) :
    decimalValue (decimalDigits fuel value) = value := by
  induction fuel generalizing value with
  | zero => exact absurd h (Nat.not_lt_zero _)
  | succ fuel ih =>
    have hdigit : (UInt8.ofNat (48 + value % 10)).toNat - 48 = value % 10 := by
      rw [UInt8.toNat_ofNat', Nat.mod_eq_of_lt (by omega)]
      omega
    rw [decimalDigits] at h ⊢
    rw [decimalValue, hdigit]
    split
    · next hlast =>
      rw [decimalValue]
      omega
    · next hmore =>
      rw [if_neg hmore, List.length_cons] at h
      rw [ih (by omega)]
      omega

variable {n capacity : ℕ} {disk name : List UInt8} {slots : List (Option Slot)} {block : ℕ → Bytes}
  {indices : List ℕ}

theorem toDecimal_injective {m : ℕ} {digits : List UInt8} (hm : toDecimal 12 m = some digits)
    (hn : toDecimal 12 n = some digits) : m = n := by
  rw [toDecimal] at hm hn
  split at hm
  · cases hm
  split at hn
  · cases hn
  · next hfit hfit' =>
    have hsame := List.reverse_injective ((Option.some.inj hm).trans (Option.some.inj hn).symm)
    have hvalue : decimalValue (decimalDigits 20 m) = m := decimalValue_digits (by omega)
    rw [← hvalue, hsame, decimalValue_digits (by omega)]

/-- The name of a partition is that of its disk, with its number behind it. -/
theorem partitionName_eq_some {number : ℕ} (h : partitionName disk number capacity = some name) :
    name.length < capacity ∧ ∃ digits, toDecimal 12 number = some digits ∧
      name = disk ++ (if endsInDigit disk then [0x70] else []) ++ digits := by
  rw [partitionName] at h
  split at h
  · cases h
  · next digits hdigits =>
    rw [Text.copy] at h
    split at h
    · cases h
    · next copied hcopy =>
      obtain rfl : copied = disk := by
        split at hcopy
        · cases hcopy
        · exact (Option.some.inj hcopy).symm
      split at h
      · cases h
      · next marked hmark =>
        obtain ⟨rfl, hfits⟩ := Text.append_eq_some h
        refine ⟨hfits, digits, hdigits, ?_⟩
        split at hmark
        · next hdigit => rw [(Text.append_eq_some hmark).1, if_pos hdigit]
        · next hdigit => rw [if_neg hdigit, List.append_nil, Option.some.inj hmark]

theorem partitionName_injective {m : ℕ} (hm : partitionName disk m capacity = some name)
    (hn : partitionName disk n capacity = some name) : m = n := by
  obtain ⟨-, digits, hdigits, rfl⟩ := partitionName_eq_some hm
  obtain ⟨-, digits', hdigits', heq⟩ := partitionName_eq_some hn
  rw [List.append_cancel_left heq] at hdigits
  exact toDecimal_injective hdigits hdigits'

theorem toDecimal_ne_nil {value : ℕ} {digits : List UInt8}
    (h : toDecimal capacity value = some digits) : digits ≠ [] := by
  rw [toDecimal] at h
  split at h
  · cases h
  · rw [← Option.some.inj h, decimalDigits, List.reverse_cons]
    exact List.concat_ne_nil _ _

/-- A name that fits and is not taken is registered while there is room. -/
theorem registerDevice_ok {names : List (List UInt8)} {number : ℕ}
    (hname : partitionName disk number (maxDeviceName + 1) = some name)
    (hroom : names.length < maxRegistered) (hfree : name ∉ names) :
    registerDevice names name = (.ok, names ++ [name]) := by
  obtain ⟨hfits, digits, hdigits, heq⟩ := partitionName_eq_some hname
  have hne : name ≠ [] := by
    rw [heq]
    exact List.append_ne_nil_of_right_ne_nil _ (toDecimal_ne_nil hdigits)
  rw [registerDevice, if_neg (not_or.mpr ⟨hne, by omega⟩), if_neg (by omega), if_neg hfree]

/-! ## Partitions with different numbers are published -/

/-- How many slots are free. -/
def freeSlots (slots : List (Option Slot)) : ℕ := slots.countP Option.isNone

theorem freeSlots_set {i : ℕ} (hi : slots[i]? = some none) (s : Slot) :
    freeSlots (slots.set i (some s)) + 1 = freeSlots slots := by
  induction slots generalizing i with
  | nil => cases hi
  | cons slot rest ih =>
    cases i with
    | zero =>
      obtain rfl : slot = none := Option.some.inj hi
      rw [List.set_cons_zero, freeSlots, freeSlots, List.countP_cons, List.countP_cons]
      rfl
    | succ i =>
      have hrest := ih hi
      rw [freeSlots, freeSlots] at hrest
      rw [List.set_cons_succ, freeSlots, freeSlots, List.countP_cons, List.countP_cons]
      omega

theorem findIdx?_free (h : 0 < freeSlots slots) :
    ∃ i, slots.findIdx? Option.isNone = some i ∧ slots[i]? = some none := by
  have hany : (slots.findIdx? Option.isNone).isSome = true := by
    rw [List.findIdx?_isSome, List.any_eq_true]
    exact List.countP_pos_iff.mp h
  obtain ⟨i, hi⟩ := Option.isSome_iff_exists.mp hany
  obtain ⟨hlt, hnone, -⟩ := List.findIdx?_eq_some_iff_getElem.mp hi
  exact ⟨i, hi, by rw [List.getElem?_eq_getElem hlt, Option.isNone_iff_eq_none.mp hnone]⟩

theorem mem_set_of_free {i : ℕ} (hi : slots[i]? = some none) {s : Slot} (hs : some s ∈ slots)
    (s' : Slot) : some s ∈ slots.set i (some s') := by
  obtain ⟨j, hj⟩ := List.mem_iff_getElem?.mp hs
  refine List.mem_iff_getElem?.mpr ⟨j, ?_⟩
  rw [List.getElem?_set_ne, hj]
  rintro rfl
  rw [hi] at hj
  cases hj

/-- **Partitions with different numbers are all published** when their names fit and are not
taken and there is room for them: the registry gets their names, in order, and each has a slot. -/
theorem publishLoop_all (disk : List UInt8) (entries : List Entry) (r : Registry) (published : ℕ)
    (names : List (List UInt8))
    (hnames : entries.map (fun e => partitionName disk e.number (maxDeviceName + 1)) =
      names.map some)
    (hnumbers : (entries.map Entry.number).Nodup) (hfree : ∀ name ∈ names, name ∉ r.names)
    (hroom : r.names.length + entries.length ≤ maxRegistered)
    (hslots : entries.length ≤ freeSlots r.slots) :
    (publishLoop disk entries r published).1 = published + entries.length ∧
      (publishLoop disk entries r published).2.names = r.names ++ names ∧
      (∀ s, some s ∈ r.slots → some s ∈ (publishLoop disk entries r published).2.slots) ∧
      ∀ e ∈ entries, ∃ name ∈ names,
        partitionName disk e.number (maxDeviceName + 1) = some name ∧
          some ⟨disk, name, e.window⟩ ∈ (publishLoop disk entries r published).2.slots := by
  induction entries generalizing r published names with
  | nil =>
    obtain rfl : names = [] := by simpa using hnames.symm
    exact ⟨rfl, (List.append_nil _).symm, fun _ h => h, fun e he => nomatch he⟩
  | cons e rest ih =>
    obtain ⟨name, names', rfl⟩ : ∃ name names', names = name :: names' := by
      cases names with
      | nil => cases hnames
      | cons name names' => exact ⟨name, names', rfl⟩
    obtain ⟨hname, hnames'⟩ := List.cons.inj hnames
    obtain ⟨hnew, hrest⟩ := List.nodup_cons.mp hnumbers
    rw [List.length_cons] at hroom hslots
    obtain ⟨i, hfind, hi⟩ := findIdx?_free (Nat.lt_of_lt_of_le (Nat.succ_pos _) hslots)
    have hregister := registerDevice_ok hname (by omega) (hfree name List.mem_cons_self)
    have hcount := freeSlots_set hi ⟨disk, name, e.window⟩
    -- the names of the others differ from this one, since their numbers do
    have hfree' : ∀ other ∈ names', other ∉ r.names ++ [name] := by
      intro other hother hmem
      rcases List.mem_append.mp hmem with hmem | hmem
      · exact hfree other (List.mem_cons_of_mem _ hother) hmem
      · obtain rfl := List.mem_singleton.mp hmem
        have hmem := List.mem_map_of_mem (f := some) hother
        rw [← hnames'] at hmem
        obtain ⟨e', he', hname'⟩ := List.mem_map.mp hmem
        exact hnew (partitionName_injective hname hname' ▸ List.mem_map_of_mem he')
    rw [publishLoop]
    simp only [hfind, hname, hregister]
    obtain ⟨hpublished, hregistered, hkept, hall⟩ :=
      ih ⟨r.names ++ [name], r.slots.set i (some ⟨disk, name, e.window⟩)⟩ (published + 1) names'
        hnames' hrest hfree' (by simp only [List.length_append, List.length_singleton]; omega)
        (by simp only; omega)
    refine ⟨by rw [hpublished, List.length_cons]; omega, ?_, ?_, ?_⟩
    · rw [hregistered, List.append_assoc, List.singleton_append]
    · exact fun s hs => hkept s (mem_set_of_free hi hs _)
    · intro e' he'
      rcases List.mem_cons.mp he' with rfl | he'
      · refine ⟨name, List.mem_cons_self, hname, hkept _ (List.mem_set ?_ _)⟩
        exact (List.getElem?_eq_some_iff.mp hi).1
      · obtain ⟨name', hmem, hname', hslot⟩ := hall e' he'
        exact ⟨name', List.mem_cons_of_mem _ hmem, hname', hslot⟩

/-! ## The numbers of a table -/

theorem logicals_numbers {base length : ℕ} :
    ∀ {step ebr number : ℕ}, (logicals block base length step ebr number).map Entry.number =
      List.range' number (logicals block base length step ebr number).length
  | 0, _, _ => rfl
  | step + 1, ebr, number => by
    have hfound : ∀ e, logicalAt (block ebr) base length ebr number = some e →
        e.number = number := by
      intro e he
      rw [logicalAt] at he
      split at he
      · rw [← Option.some.inj he]
      · cases he
    rw [logicals]
    split
    · rfl
    dsimp only
    cases hat : logicalAt (block ebr) base length ebr number with
    | none =>
      cases followingEbr (block ebr) base length with
      | none => rfl
      | some following => exact logicals_numbers
    | some e =>
      cases followingEbr (block ebr) base length with
      | none =>
        simp only [Option.toList_some, List.append_nil, List.map_cons, List.map_nil,
          hfound e hat, List.length_singleton, List.range'_one]
      | some following =>
        simp only [Option.toList_some, List.singleton_append, List.map_cons, hfound e hat,
          Option.isSome_some, if_true, List.length_cons, List.range'_succ]
        rw [logicals_numbers]

/-- The numbers that one entry of the boot record gives: its own, or those from five on. -/
theorem primariesAt_numbers (block : ℕ → Bytes) (index : ℕ) :
    (primariesAt block index).map Entry.number = [index + 1] ∨
      (primariesAt block index).map Entry.number =
        List.range' 5 (primariesAt block index).length := by
  rw [primariesAt]
  split
  · exact .inr rfl
  split
  · exact .inr logicals_numbers
  · exact .inl rfl

theorem primariesAt_nodup (block : ℕ → Bytes) (index : ℕ) :
    ((primariesAt block index).map Entry.number).Nodup := by
  rcases primariesAt_numbers block index with h | h
  · rw [h]
    exact List.nodup_singleton _
  · rw [h]
    exact List.nodup_range'

theorem mem_primaries {index : ℕ} {e : Entry} :
    (index, e) ∈ primaries block indices ↔ index ∈ indices ∧ e ∈ primariesAt block index := by
  rw [primaries, List.mem_flatMap]
  constructor
  · rintro ⟨i, hi, hmem⟩
    obtain ⟨e', he', ⟨⟩⟩ := List.mem_map.mp hmem
    exact ⟨hi, he'⟩
  · exact fun h => ⟨index, h.1, List.mem_map_of_mem h.2⟩

theorem nodup_primaries (h : indices.Nodup) : (primaries block indices).Nodup := by
  refine List.nodup_flatMap.mpr ⟨fun index _ => ?_, h.imp fun hne => ?_⟩
  · refine List.Nodup.map (fun a b hab => (Prod.mk.inj hab).2) ?_
    exact (primariesAt_nodup block index).of_map _
  · intro pair hleft hright
    obtain ⟨e, -, rfl⟩ := List.mem_map.mp hleft
    obtain ⟨e', -, heq⟩ := List.mem_map.mp hright
    exact hne (Prod.mk.inj heq).1.symm

/-- A beginning of the partitions of some entries that has a logical partition has the first of
its chain. -/
theorem exists_first {index : ℕ} {e : Entry} (h : (index, e) ∈ (primaries block indices).take n)
    (hlogical : 5 ≤ e.number) (hsmall : ∀ i ∈ indices, i < 4) :
    ∃ e', (index, e') ∈ (primaries block indices).take n ∧ e'.number = 5 := by
  induction indices generalizing n with
  | nil => simp [primaries] at h
  | cons i rest ih =>
    have hsplit : primaries block (i :: rest) =
        (primariesAt block i).map (i, ·) ++ primaries block rest := List.flatMap_cons
    rw [hsplit, List.take_append] at h ⊢
    rcases List.mem_append.mp h with h | h
    · rw [← List.map_take] at h ⊢
      obtain ⟨e₁, he₁, ⟨⟩⟩ := List.mem_map.mp h
      have hmem := List.mem_map_of_mem (f := Entry.number) (List.mem_of_mem_take he₁)
      rcases primariesAt_numbers block index with hnumbers | hnumbers
      · -- a primary partition has a small number
        rw [hnumbers, List.mem_singleton] at hmem
        have := hsmall index List.mem_cons_self
        omega
      · have htake : ((primariesAt block index).take n).map Entry.number =
            List.range' 5 ((primariesAt block index).take n).length := by
          rw [List.map_take]
          have h := take_eq_range' (k := 5) (by rw [List.length_map]; exact hnumbers) n
          rwa [← List.map_take, List.length_map, List.map_take] at h
        have hfive : 5 ∈ ((primariesAt block index).take n).map Entry.number := by
          rw [htake]
          exact List.mem_range'_1.mpr ⟨Nat.le_refl _, by
            have := List.length_pos_of_mem he₁
            omega⟩
        obtain ⟨e', he', hnumber⟩ := List.mem_map.mp hfive
        exact ⟨e', List.mem_append_left _ (List.mem_map_of_mem he'), hnumber⟩
    · obtain ⟨e', he', hnumber⟩ := ih h fun i hi => hsmall i (List.mem_cons_of_mem _ hi)
      exact ⟨e', List.mem_append_right _ he', hnumber⟩

/-- The logical partitions among `recorded` all come from one entry of the boot record. -/
def OneChain (recorded : List (ℕ × Entry)) : Prop :=
  ∀ a ∈ recorded, ∀ b ∈ recorded, 5 ≤ a.2.number → 5 ≤ b.2.number → a.1 = b.1

instance (recorded : List (ℕ × Entry)) : Decidable (OneChain recorded) :=
  inferInstanceAs (Decidable (∀ a ∈ recorded, _))

/-- **The numbers of a beginning of the partitions of a boot record are different** just when its
logical partitions come from one chain. -/
theorem nodup_numbers_iff (hnodup : indices.Nodup) (hsmall : ∀ i ∈ indices, i < 4) (n : ℕ) :
    (((primaries block indices).take n).map fun a => a.2.number).Nodup ↔
      OneChain ((primaries block indices).take n) := by
  constructor
  · -- two chains would both give the number five
    rintro h ⟨i, a⟩ ha ⟨j, b⟩ hb hlogical hlogical'
    obtain ⟨a', ha', hfive⟩ := exists_first ha hlogical hsmall
    obtain ⟨b', hb', hfive'⟩ := exists_first hb hlogical' hsmall
    have := List.inj_on_of_nodup_map h ha' hb' (hfive.trans hfive'.symm)
    exact (Prod.mk.inj this).1
  · intro h
    refine List.Nodup.map_on ?_ ((nodup_primaries hnodup).sublist (List.take_sublist _ _))
    rintro ⟨i, a⟩ ha ⟨j, b⟩ hb heq
    obtain ⟨hi, hamem⟩ := mem_primaries.mp (List.mem_of_mem_take ha)
    obtain ⟨hj, hbmem⟩ := mem_primaries.mp (List.mem_of_mem_take hb)
    have hindex : i = j := by
      by_cases hlogical : 5 ≤ a.number
      · exact h _ ha _ hb hlogical (heq ▸ hlogical)
      · -- a number below five is that of a primary partition
        have hprimary : ∀ {k : ℕ} {e : Entry}, e ∈ primariesAt block k → e.number < 5 →
            e.number = k + 1 := by
          intro k e he hlt
          have hmem := List.mem_map_of_mem (f := Entry.number) he
          rcases primariesAt_numbers block k with hnumbers | hnumbers
          · rw [hnumbers] at hmem
            exact List.mem_singleton.mp hmem
          · rw [hnumbers] at hmem
            have := (List.mem_range'_1.mp hmem).1
            omega
        have hleft := hprimary hamem (by omega)
        have hright := hprimary hbmem (by simp only at heq; omega)
        simp only at heq
        omega
    subst hindex
    rw [List.inj_on_of_nodup_map (primariesAt_nodup block i) hamem hbmem heq]

theorem gptListed_nodup (d : Device) (h : GptHeader) :
    ((gptListed d h).map Entry.number).Nodup := by
  have hnumber : ∀ {i : ℕ} {entry : Bytes} {e : Entry},
      gptEntry d.blockCount entry (0 + i) = some e → e.number = i + 1 := by
    intro i entry e he
    rw [gptEntry] at he
    split at he
    · cases he
    split at he
    · cases he
    · rw [← Option.some.inj he, Nat.zero_add]
  rw [List.nodup_iff_pairwise_ne, List.pairwise_map]
  refine (List.pairwise_filterMap).mpr (List.pairwise_lt_range.imp fun hlt e he e' he' => ?_)
  rw [hnumber he, hnumber he']
  omega

theorem Lists.nodup_iff {d : Device} {t : Table} (h : Lists d t) :
    (t.entries.map Entry.number).Nodup ↔
      (PlainMbr d → OneChain ((primaries d.block [0, 1, 2, 3]).take maxEntries)) := by
  cases h with
  | none hmbr => exact iff_of_true List.nodup_nil fun h => (hmbr h).elim
  | mbr hmbr =>
    rw [← nodup_numbers_iff (by decide) (by decide), Table.of, ← List.map_take, List.map_map]
    exact ⟨fun h _ => h, fun h => h hmbr⟩
  | gpt usedBackup hmbr hvalid =>
    refine iff_of_true ?_ fun h => (hmbr h).elim
    rw [Table.of, List.map_take]
    exact (gptListed_nodup d _).sublist (List.take_sublist _ _)

/-- **Partition numbers are unique when the logical partitions among the first 16 that a boot record
lists come from one extended partition**, and only then; and then `publish` gives each partition a
name of its own and registers it, when the names fit and are not taken and the slots and
the registry have room. -/
theorem read_numbers (d : Device) (memory : Bool)
    (hread : (runDevice (read d.blockSize d.blockCount memory) d).1.1 = true) :
    let table := (runDevice (read d.blockSize d.blockCount memory) d).1.2
    ((table.entries.map Entry.number).Nodup ↔
        (PlainMbr d → OneChain ((primaries d.block [0, 1, 2, 3]).take maxEntries))) ∧
      ((table.entries.map Entry.number).Nodup →
        ∀ (disk : List UInt8) (r : Registry) (names : List (List UInt8)),
          table.entries.map (fun e => partitionName disk e.number (maxDeviceName + 1)) =
            names.map some →
          (∀ name ∈ names, name ∉ r.names) →
          r.names.length + table.entries.length ≤ maxRegistered →
          table.entries.length ≤ freeSlots r.slots →
          names.Nodup ∧
            (publish disk true true table r).1 = table.entries.length ∧
            (publish disk true true table r).2.names = r.names ++ names ∧
            ∀ e ∈ table.entries, ∃ name ∈ names,
              partitionName disk e.number (maxDeviceName + 1) = some name ∧
                some ⟨disk, name, e.window⟩ ∈ (publish disk true true table r).2.slots) := by
  intro table
  have hlists : Lists d table := (runDevice_of_always
    (read_lists (d := d) (R := fun _ _ => True) (fun _ => trivial) memory)).1 hread
  refine ⟨hlists.nodup_iff, fun hnodup disk r names hnames hfree hroom hslots => ?_⟩
  obtain ⟨hpublished, hregistered, -, hall⟩ :=
    publishLoop_all disk table.entries r 0 names hnames hnodup hfree hroom hslots
  refine ⟨?_, hpublished.trans (Nat.zero_add _), hregistered, hall⟩
  -- equal names would be of equal numbers
  refine List.Nodup.of_map some ?_
  rw [← hnames]
  refine List.Nodup.map_on (fun e he e' he' heq => ?_) (hnodup.of_map _)
  obtain ⟨name, -, hname, -⟩ := hall e he
  exact List.inj_on_of_nodup_map hnodup he he'
    (partitionName_injective hname (heq ▸ hname))

set_option maxRecDepth 100000 in
theorem read_numbers_oneChain :
    ((runDevice (read 512 64 true) loopingDisk).1.2.entries.map Entry.number).Nodup :=
  ((read_numbers loopingDisk true (by decide +kernel)).1).mpr fun _ => by decide +kernel

/-- A disk with two extended partitions that have a logical partition each. -/
def twoChainsDisk : Device where
  blockSize := 512
  blockCount := 64
  content := .ofTable [(450, 0x05), (454, 16), (458, 16), (466, 0x05), (470, 32), (474, 16),
    (510, 0x55), (511, 0xAA), (16 * 512 + 450, 0x83), (16 * 512 + 454, 1), (16 * 512 + 458, 2),
    (16 * 512 + 510, 0x55), (16 * 512 + 511, 0xAA), (32 * 512 + 450, 0x83), (32 * 512 + 454, 1),
    (32 * 512 + 458, 2), (32 * 512 + 510, 0x55), (32 * 512 + 511, 0xAA)]
  faults _ := none
  accesses := 0

set_option maxRecDepth 100000 in
/-- Both logical partitions get the number five, and only one of them is published. -/
theorem read_twoChains :
    (runDevice (read 512 64 true) twoChainsDisk).1.1 = true ∧
      (runDevice (read 512 64 true) twoChainsDisk).1.2.entries.map Entry.number = [5, 5] ∧
      (publish [0x76, 0x64, 0x61] true true (runDevice (read 512 64 true) twoChainsDisk).1.2
        ⟨[], List.replicate 16 none⟩).1 = 1 := by
  decide +kernel

end ShirleysOS.Partition
