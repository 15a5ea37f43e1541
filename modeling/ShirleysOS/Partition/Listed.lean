import Mathlib.Data.List.Basic
import ShirleysOS.Partition.Table
import ShirleysOS.Storage.Reading

/-!
# The partitions that a disk lists

What `read` gives is said here in terms of the content of the disk alone: the partitions of a boot
record are those of its four entries, in order, with the chain of each extended partition in its
place; those of a GUID partition table are the used entries of its array. A table has the first
sixteen of them and says whether there are more.
-/

namespace ShirleysOS.Partition

open Lib Storage

/-! ## Adding to a table -/

/-- `add` of several partitions. -/
def Table.addAll (table : Table) (entries : List Entry) : Table := entries.foldl Table.add table

@[simp] theorem Table.addAll_nil (table : Table) : table.addAll [] = table := rfl

theorem Table.addAll_append (table : Table) (left right : List Entry) :
    table.addAll (left ++ right) = (table.addAll left).addAll right := List.foldl_append

theorem Table.addAll_toList (table : Table) (found : Option Entry) :
    table.addAll found.toList = found.elim table table.add := by cases found <;> rfl

/-- **A table has the first sixteen partitions added**, and says whether there were more. -/
theorem addAll_eq {table : Table} (h : table.entries.length ≤ maxEntries) (entries : List Entry) :
    table.addAll entries = { table with
      entries := (table.entries ++ entries).take maxEntries
      truncated :=
        table.truncated || decide (maxEntries < (table.entries ++ entries).length) } := by
  induction entries generalizing table with
  | nil =>
    have hfits : ¬ maxEntries < table.entries.length := by omega
    rw [Table.addAll_nil, List.append_nil, List.take_of_length_le h, decide_eq_false hfits,
      Bool.or_false]
  | cons entry rest ih =>
    change (table.add entry).addAll rest = _
    unfold Table.add
    split
    · next hfull =>
      have hkept : ∀ more, (table.entries ++ more).take maxEntries = table.entries := fun more => by
        rw [List.take_append_of_le_length (by omega), List.take_of_length_le h]
      rw [ih (by exact h), hkept, hkept]
      have hmore : maxEntries < (table.entries ++ entry :: rest).length := by
        rw [List.length_append, List.length_cons]
        omega
      rw [decide_eq_true hmore, Bool.or_true, Bool.true_or]
    · next hroom =>
      rw [ih (by rw [List.length_append, List.length_singleton]; omega), List.append_assoc,
        List.singleton_append]

/-- The table of a list of partitions: it has the first sixteen. -/
def Table.of (scheme : Scheme) (entries : List Entry) (usedBackup : Bool) : Table where
  scheme := scheme
  entries := entries.take maxEntries
  truncated := decide (maxEntries < entries.length)
  usedBackup := usedBackup

theorem addAll_empty (scheme : Scheme) (entries : List Entry) :
    ({ scheme } : Table).addAll entries = Table.of scheme entries false := by
  rw [addAll_eq (Nat.zero_le _), List.nil_append, Bool.false_or]
  rfl

/-! ## Boot records -/

/-- The logical partitions of the chain that goes on at `ebr`, of at most `steps` boot records,
when the next one found gets `number`. -/
def logicals (block : ℕ → Bytes) (base length : ℕ) : ℕ → ℕ → ℕ → List Entry
  | 0, _, _ => []
  | step + 1, ebr, number =>
    if !hasSignature (block ebr) then []
    else
      let found := logicalAt (block ebr) base length ebr number
      found.toList ++ match followingEbr (block ebr) base length with
        | none => []
        | some following =>
          logicals block base length step following (if found.isSome then number + 1 else number)

/-- The partitions of the entry at `index` of the boot record. -/
def primariesAt (block : ℕ → Bytes) (index : ℕ) : List Entry :=
  let primary := mbrEntry (block 0) index
  if primary.type = 0 then []
  else if extendedType primary.type then
    logicals block primary.start primary.count maxLogical primary.start 5
  else [⟨index + 1, primary.start, primary.count, primary.type, List.replicate 16 0⟩]

/-- The partitions of several entries of the boot record, each with the index of its entry. -/
def primaries (block : ℕ → Bytes) (indices : List ℕ) : List (ℕ × Entry) :=
  indices.flatMap fun index => (primariesAt block index).map (index, ·)

/-! ## Copies of a GUID partition table -/

/-- The partitions of `n` entries of an array, the first of which is the one at `index`. -/
def gptRange (blocks entryBytes : ℕ) (array : Bytes) (index n : ℕ) : List Entry :=
  (List.range n).filterMap fun i => gptEntry blocks (array.slice (i * entryBytes)) (index + i)

/-- The array of entries of the copy with header `h`. -/
def GptHeader.array (h : GptHeader) (d : Device) : Bytes := d.block h.arrayLba

/-- **A valid copy** of a GUID partition table: its signature, the size of its header, its own
place, the check of its header, the size of its entries and the place of its array are right, and
so is the check of the whole array. -/
structure ValidCopy (d : Device) (lba : ℕ) (h : GptHeader) : Prop where
  signature : textAt (d.block lba) 0 gptText = true
  headerBytes : 92 ≤ (d.block lba).nat 12 4 ∧ (d.block lba).nat 12 4 ≤ d.blockSize
  ownLba : (d.block lba).nat 24 8 = lba
  headerCrc : (Checksum.crc32 ((d.block lba).splice 16 4 fun _ => 0)
    ((d.block lba).nat 12 4) 0).toNat = (d.block lba).nat 16 4
  header : h = ⟨(d.block lba).nat 72 8, (d.block lba).nat 80 4, (d.block lba).nat 84 4,
    (d.block lba).nat 88 4⟩
  inRange : h.InRange d.blockSize d.blockCount
  arrayCrc : (Checksum.crc32 (h.array d) h.arrayBytes 0).toNat = h.arrayCrc

/-- The partitions of a copy: the entries of the array that are used and lie inside the disk. -/
def gptListed (d : Device) (h : GptHeader) : List Entry :=
  gptRange d.blockCount h.entryBytes (h.array d) 0 h.entryTotal

/-! ## Reading a block -/

variable {d : Device} {A : Answers Error} {R : ℕ → ℕ → Prop}

theorem always_readBlock {lba : ℕ} {Q : Option Bytes → Prop} (hR : R lba 1) (hnone : Q none)
    (hsome : lba < d.blockCount → Q (some (d.block lba))) :
    (readBlock lba).Always d.answers R Q := by
  refine ⟨hR, fun r hr => ?_⟩
  rcases hr with ⟨error, rfl⟩ | ⟨hrange, rfl⟩
  · exact hnone
  · exact hsome hrange

theorem exact_readBlock {lba : ℕ} {Q : Option Bytes → Prop} (hR : R lba 1)
    (hrange : lba < d.blockCount) (h : Q (some (d.block lba))) :
    (readBlock lba).Always d.exact R Q := by
  refine ⟨hR, fun r hr => ?_⟩
  rw [Device.exact, if_pos (by exact hrange)] at hr
  rw [hr]
  exact h

/-! ## Boot records are read as listed -/

theorem logicalLoop_listed {base length : ℕ} (hR : ∀ lba, R lba 1) (step ebr number : ℕ)
    (table : Table) :
    (logicalLoop base length step ebr number table).Always d.answers R fun out =>
      ∀ t, out = some t → t = table.addAll (logicals d.block base length step ebr number) := by
  induction step generalizing ebr number table with
  | zero => exact fun t ht => (Option.some.inj ht).symm
  | succ step ih =>
    rw [logicalLoop, Io.always_bind]
    refine always_readBlock (hR ebr) (fun t ht => nomatch ht) fun _ => ?_
    rw [logicals]
    dsimp only
    split
    · exact fun t ht => (Option.some.inj ht).symm
    rw [Table.addAll_append, Table.addAll_toList]
    cases followingEbr (d.block ebr) base length with
    | none => exact fun t ht => (Option.some.inj ht).symm
    | some following => exact ih _ _ _

theorem primaryLoop_listed (hR : ∀ lba, R lba 1) (indices : List ℕ) (table : Table) :
    (primaryLoop (d.block 0) indices table).Always d.answers R fun out =>
      ∀ t, out = some t → t = table.addAll ((primaries d.block indices).map Prod.snd) := by
  induction indices generalizing table with
  | nil => exact fun t ht => (Option.some.inj ht).symm
  | cons index rest ih =>
    have hsplit : (primaries d.block (index :: rest)).map Prod.snd =
        primariesAt d.block index ++ (primaries d.block rest).map Prod.snd := by
      rw [primaries, List.flatMap_cons, List.map_append, List.map_map]
      exact congrArg (· ++ _) (List.map_id _)
    rw [hsplit, Table.addAll_append, primaryLoop, primariesAt]
    split
    · exact ih _
    split
    · rw [Io.always_bind]
      refine (logicalLoop_listed hR maxLogical _ 5 table).mono fun out hout => ?_
      cases out with
      | none => exact fun t ht => nomatch ht
      | some read =>
        rw [← hout read rfl]
        exact ih read
    · exact ih _

/-! ## GUID partition tables are read as listed -/

theorem gptRange_add {blocks entryBytes index m n : ℕ} {array : Bytes} :
    gptRange blocks entryBytes array index (m + n) =
      gptRange blocks entryBytes array index m ++
        gptRange blocks entryBytes (array.slice (m * entryBytes)) (index + m) n := by
  rw [gptRange, List.range_add, List.filterMap_append, List.filterMap_map]
  congr 1
  refine List.filterMap_congr fun i _ => ?_
  rw [Function.comp_apply, Nat.add_mul, Bytes.slice_slice, Nat.add_assoc]

/-- The loop over one block lists the entries in it. -/
theorem entryLoop_eq {blocks entryBytes : ℕ} (hpos : 0 < entryBytes) {block : Bytes} {n : ℕ} :
    ∀ {fuel k index : ℕ} {table : Table}, k ≤ n → n - k ≤ fuel →
      entryLoop blocks entryBytes block (n * entryBytes) fuel (k * entryBytes) index table =
        (table.addAll (gptRange blocks entryBytes (block.slice (k * entryBytes)) index (n - k)),
          index + (n - k))
  | 0, k, index, table, hk, hfuel => by
    obtain rfl : k = n := by omega
    rw [Nat.sub_self]
    rfl
  | fuel + 1, k, index, table, hk, hfuel => by
    rw [entryLoop]
    split
    · next hlt =>
      have hlt := Nat.lt_of_mul_lt_mul_right hlt
      obtain ⟨m, hm⟩ : ∃ m, n - k = 1 + m := ⟨n - k - 1, by omega⟩
      have hnext : k * entryBytes + entryBytes = (k + 1) * entryBytes := (Nat.succ_mul _ _).symm
      dsimp only
      rw [hnext, entryLoop_eq hpos (by omega) (by omega), show n - (k + 1) = m by omega, hm,
        gptRange_add, Table.addAll_append, Nat.one_mul, Bytes.slice_slice, hnext, Nat.add_assoc]
      congr 2
      simp only [gptRange, List.range_one, List.filterMap_cons, List.filterMap_nil, Nat.zero_mul,
        Bytes.slice_zero, Nat.add_zero]
      rw [← Table.addAll_toList]
      cases gptEntry blocks (block.slice (k * entryBytes)) index <;> rfl
    · next hge =>
      have hge : n ≤ k := Nat.le_of_mul_le_mul_right (Nat.le_of_not_lt hge) hpos
      rw [Nat.sub_eq_zero_of_le hge]
      rfl

theorem entryLoop_block (blocks : ℕ) {entryBytes : ℕ} (hpos : 0 < entryBytes) (block : Bytes)
    (m index : ℕ) (table : Table) :
    entryLoop blocks entryBytes block (m * entryBytes) (m * entryBytes) 0 index table =
      (table.addAll (gptRange blocks entryBytes block index m), index + m) := by
  have h : entryLoop blocks entryBytes block (m * entryBytes) (m * entryBytes) (0 * entryBytes)
      index table = (table.addAll (gptRange blocks entryBytes (block.slice (0 * entryBytes)) index
        (m - 0)), index + (m - 0)) :=
    entryLoop_eq hpos (Nat.zero_le m) (Nat.le_mul_of_pos_right (m - 0) hpos)
  rwa [Nat.zero_mul, Nat.sub_zero, Bytes.slice_zero] at h

/-- **The loop over the blocks of the array** checks and lists what remains of it. -/
theorem arrayLoop_listed (lba : ℕ) {entryBytes : ℕ} (hR : ∀ lba, R lba 1) (hpos : 0 < entryBytes)
    (hdvd : entryBytes ∣ d.blockSize) (hblock : 0 < d.blockSize) :
    ∀ (left at_ : ℕ) (crc : UInt32) (n index : ℕ) (table : Table),
      left = (n * entryBytes + d.blockSize - 1) / d.blockSize →
      (arrayLoop d.blockSize d.blockCount lba entryBytes left at_ crc (n * entryBytes) index
        table).Always d.answers R fun out => ∀ crc' t, out = some (crc', t) →
          crc' = Checksum.crc32 (d.block (lba + at_)) (n * entryBytes) crc ∧
            t = table.addAll (gptRange d.blockCount entryBytes (d.block (lba + at_)) index n)
  | 0, at_, crc, n, index, table, hleft => by
    have hzero : n * entryBytes = 0 := by
      rcases Nat.div_eq_zero_iff.mp hleft.symm with h | h <;> omega
    obtain rfl : n = 0 := (Nat.mul_eq_zero.mp hzero).resolve_right (by omega)
    rintro crc' t ⟨⟩
    rw [Nat.zero_mul]
    exact ⟨UInt32.not_not.symm, rfl⟩
  | left + 1, at_, crc, n, index, table, hleft => by
    rw [arrayLoop, Io.always_bind]
    refine always_readBlock (hR _) (fun crc' t ht => nomatch ht) fun _ => ?_
    dsimp only
    split
    · next hlast =>
      -- the last block: what remains does not fill it
      obtain rfl : left = 0 := by
        have : (n * entryBytes + d.blockSize - 1) / d.blockSize < 2 :=
          Nat.div_lt_of_lt_mul (by omega)
        omega
      rw [entryLoop_block d.blockCount hpos]
      rintro crc' t ⟨⟩
      exact ⟨rfl, rfl⟩
    · next hfull =>
      obtain ⟨k, hk⟩ := hdvd
      rw [Nat.mul_comm] at hk
      have hle : k ≤ n := Nat.le_of_mul_le_mul_right (by omega : k * entryBytes ≤ _) hpos
      obtain ⟨m, rfl⟩ := Nat.exists_eq_add_of_le hle
      have hrest : (k + m) * entryBytes - d.blockSize = m * entryBytes := by
        rw [Nat.add_mul, ← hk, Nat.add_sub_cancel_left]
      have hleft' : left = (m * entryBytes + d.blockSize - 1) / d.blockSize := by
        have hshift : (k + m) * entryBytes + d.blockSize - 1 =
            m * entryBytes + d.blockSize - 1 + d.blockSize := by
          rw [Nat.add_mul, ← hk]
          omega
        rw [hshift, Nat.add_div_right _ hblock] at hleft
        omega
      have hnext : d.block (lba + (at_ + 1)) = (d.block (lba + at_)).slice (k * entryBytes) := by
        rw [Device.block, Device.block, Bytes.slice_slice, ← hk, ← Nat.succ_mul]
        rfl
      have hentries := entryLoop_block d.blockCount hpos (d.block (lba + at_)) k index table
      rw [← hk] at hentries
      rw [hrest, hentries]
      refine (arrayLoop_listed lba hR hpos ⟨k, by rw [hk, Nat.mul_comm]⟩ hblock left (at_ + 1) _ m
        (index + k) _ hleft').mono fun out hout crc' t ht => ?_
      obtain ⟨hcrc, htable⟩ := hout crc' t ht
      rw [hnext] at hcrc htable
      refine ⟨?_, ?_⟩
      · rw [hcrc, Nat.add_mul, hk]
        exact Checksum.update_add.symm
      · rw [htable, gptRange_add, Table.addAll_append]

theorem arrayLoop_succeeds (entryBytes lba : ℕ) (hR : ∀ lba, R lba 1) :
    ∀ (left at_ : ℕ) (crc : UInt32) (remaining index : ℕ) (table : Table),
      lba + at_ + left ≤ d.blockCount →
      (arrayLoop d.blockSize d.blockCount lba entryBytes left at_ crc remaining index
        table).Always d.exact R fun out => out.isSome
  | 0, _, _, _, _, _, _ => rfl
  | left + 1, at_, crc, remaining, index, table, hrange => by
    rw [arrayLoop, Io.always_bind]
    refine exact_readBlock (hR _) (by omega) ?_
    exact arrayLoop_succeeds entryBytes lba hR left (at_ + 1) _ _ _ _ (by omega)

theorem gptHeader_eq_some {blockBytes lba : ℕ} {block : Bytes} {h : GptHeader} :
    gptHeader blockBytes lba block = some h ↔
      textAt block 0 gptText = true ∧
        (92 ≤ block.nat 12 4 ∧ block.nat 12 4 ≤ blockBytes) ∧ block.nat 24 8 = lba ∧
        (Checksum.crc32 (block.splice 16 4 fun _ => 0) (block.nat 12 4) 0).toNat =
          block.nat 16 4 ∧
        h = ⟨block.nat 72 8, block.nat 80 4, block.nat 84 4, block.nat 88 4⟩ := by
  -- the fields behind the check are not touched by clearing it
  have hfield : ∀ offset width, 20 ≤ offset →
      (block.splice 16 4 fun _ => 0).nat offset width = block.nat offset width :=
    fun offset width hle => Bytes.nat_splice_outside (by omega)
  unfold gptHeader
  dsimp only
  rw [hfield 72 8 (by omega), hfield 80 4 (by omega), hfield 84 4 (by omega),
    hfield 88 4 (by omega)]
  cases textAt block 0 gptText with
  | false => simp
  | true =>
    rw [Bool.not_true, if_neg Bool.false_ne_true]
    split
    · next hbad => simp only [reduceCtorEq, false_iff]; rintro ⟨-, hbytes, hown, -⟩; omega
    · next hgood =>
      split
      · next hcrc => simp only [reduceCtorEq, false_iff]; exact fun hall => hcrc hall.2.2.2.1
      · next hcrc =>
        have hcrc := not_not.mp hcrc
        constructor
        · intro hh
          exact ⟨rfl, by omega, by omega, hcrc, (Option.some.inj hh).symm⟩
        · intro hall
          rw [hall.2.2.2.2]

/-- **A copy is read only when it is valid**, and then as it is listed. -/
theorem readGpt_listed (lba : ℕ) (hR : ∀ lba, R lba 1) :
    (readGpt d.blockSize d.blockCount lba).Always d.answers R fun out => ∀ t, out = some t →
      ∃ h, ValidCopy d lba h ∧ t = Table.of .gpt (gptListed d h) false := by
  rw [readGpt, Io.always_bind]
  refine always_readBlock (hR lba) (fun t ht => nomatch ht) fun _ => ?_
  dsimp only
  split
  · exact fun t ht => nomatch ht
  · next h hheader =>
    obtain ⟨hsignature, hbytes, hown, hcrc, hfields⟩ := gptHeader_eq_some.mp hheader
    split
    · exact fun t ht => nomatch ht
    · next hrange =>
      have hrange := not_not.mp hrange
      rw [Io.always_bind]
      have hdvd := Nat.dvd_of_mod_eq_zero hrange.2.2.1
      refine (arrayLoop_listed h.arrayLba hR (by have := hrange.1; omega) hdvd (by omega) _ 0 0
        h.entryTotal 0 _ rfl).mono fun out hout => ?_
      match out, hout with
      | none, _ => exact fun t ht => nomatch ht
      | some (crc, table), hout =>
        obtain ⟨rfl, rfl⟩ := hout crc table rfl
        dsimp only
        split
        · next harray =>
          rintro t ⟨⟩
          exact ⟨h, ⟨hsignature, hbytes, hown, hcrc, hfields, hrange, harray⟩, addAll_empty _ _⟩
        · exact fun t ht => nomatch ht

/-- **A valid copy is read** when no read fails. -/
theorem readGpt_succeeds {lba : ℕ} {h : GptHeader} (hR : ∀ lba, R lba 1)
    (hlba : lba < d.blockCount) (hvalid : ValidCopy d lba h) :
    (readGpt d.blockSize d.blockCount lba).Always d.exact R fun out => out.isSome := by
  have hheader : gptHeader d.blockSize lba (d.block lba) = some h :=
    gptHeader_eq_some.mpr ⟨hvalid.signature, hvalid.headerBytes, hvalid.ownLba,
      hvalid.headerCrc, hvalid.header⟩
  have hrange := hvalid.inRange
  have hbytes := hvalid.headerBytes
  rw [readGpt, Io.always_bind]
  refine exact_readBlock (hR lba) hlba ?_
  dsimp only
  rw [hheader]
  dsimp only
  rw [if_neg (not_not.mpr hrange), Io.always_bind]
  have hdvd := Nat.dvd_of_mod_eq_zero hrange.2.2.1
  have hlisted := (arrayLoop_listed (d := d) (R := R) h.arrayLba hR
    (by have := hrange.1; omega) hdvd (by omega) _ 0 0 h.entryTotal 0 { scheme := .gpt } rfl).fewer
    fun _ _ _ => Device.exact_answers
  have hsucceeds := arrayLoop_succeeds (d := d) (R := R) h.entryBytes h.arrayLba
    hR (h.arrayBlocks d.blockSize) 0 0 h.arrayBytes 0 { scheme := .gpt }
    (by have := hrange.2.2.2.2.2; omega)
  refine (hlisted.and hsucceeds).mono fun out hout => ?_
  match out, hout with
  | none, hout => exact nomatch hout.2
  | some (crc, table), hout =>
    obtain ⟨rfl, -⟩ := hout.1 crc table rfl
    dsimp only
    split
    · rfl
    · next hcrc => exact (hcrc hvalid.arrayCrc).elim

end ShirleysOS.Partition
