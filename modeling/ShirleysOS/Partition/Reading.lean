import ShirleysOS.Partition.Listed

/-!
# Reading a partition table

Whatever a disk holds and whichever of its reads fail, `read` ends after a bounded number of
reads, and every partition it gives lies inside the disk, so that a window onto it reaches no
other block. On a disk that has a boot record which protects a GUID partition table, `read`
gives the partitions of the first of the two copies that is valid.
-/

namespace ShirleysOS.Partition

open Lib Storage

variable {d : Device} {R : ℕ → ℕ → Prop}

/-! ## The boot record -/

/-- An entry of a boot record that looks like one of a partition table of a disk of `blocks`
blocks. -/
def MbrEntry.Plausible (blocks : ℕ) (entry : MbrEntry) : Prop :=
  (entry.status = 0x00 ∨ entry.status = 0x80) ∧
    (entry.type = 0 ∨ entry.type = mbrTypeProtective ∨
      entry.start ≠ 0 ∧ entry.count ≠ 0 ∧ entry.start + entry.count ≤ blocks)

instance (blocks : ℕ) (entry : MbrEntry) : Decidable (entry.Plausible blocks) :=
  inferInstanceAs (Decidable (_ ∧ _))

/-- What the look at the boot record finds. -/
theorem checkEntries_eq (blocks : ℕ) (block : Bytes) (indices : List ℕ) (protective : Bool) :
    checkEntries blocks block indices protective =
      if ∀ index ∈ indices, (mbrEntry block index).Plausible blocks then
        some (protective ||
          indices.any fun index => (mbrEntry block index).type == mbrTypeProtective)
      else none := by
  induction indices generalizing protective with
  | nil => simp [checkEntries]
  | cons index rest ih =>
    rw [checkEntries, List.any_cons]
    simp only [List.forall_mem_cons]
    generalize hentry : mbrEntry block index = entry
    split
    · next hstatus =>
      rw [if_neg]
      exact fun h => h.1.1.elim hstatus.1 hstatus.2
    · next hstatus =>
      have hstatus : entry.status = 0x00 ∨ entry.status = 0x80 := by tauto
      split
      · next htype =>
        have hentry : entry.Plausible blocks := ⟨hstatus, .inl htype⟩
        rw [ih, htype]
        simp only [hentry, true_and]
        rfl
      · next htype =>
        split
        · next hbad =>
          rw [if_neg]
          rintro ⟨⟨-, h⟩, -⟩
          rcases h with h | h | ⟨hstart, hcount, hend⟩
          · exact htype h
          · exact hbad.1 h
          · rcases hbad.2 with h | h | h
            · exact hstart h
            · exact hcount h
            · omega
        · next hgood =>
          have hentry : entry.Plausible blocks := by
            refine ⟨hstatus, .inr ?_⟩
            by_cases hprotective : entry.type = mbrTypeProtective
            · exact .inl hprotective
            · have := not_and.mp hgood hprotective
              exact .inr ⟨by tauto, by tauto, by omega⟩
          rw [ih]
          simp only [hentry, true_and]
          congr 2
          by_cases hprotective : entry.type = mbrTypeProtective
          · simp [hprotective]
          · rw [if_neg hprotective, beq_false_of_ne hprotective, Bool.false_or]

/-- The boot record of the disk protects a GUID partition table: it ends as a boot record does,
is none of a file system, its entries look like those of a partition table, and one of them is
the protective one. -/
structure ProtectiveMbr (d : Device) : Prop where
  signature : hasSignature (d.block 0) = true
  noFileSystem : fileSystemBootSector (d.block 0) = false
  entries : ∀ index ∈ [0, 1, 2, 3], (mbrEntry (d.block 0) index).Plausible d.blockCount
  protective : ∃ index ∈ [0, 1, 2, 3], (mbrEntry (d.block 0) index).type = mbrTypeProtective

theorem ProtectiveMbr.checkEntries (h : ProtectiveMbr d) :
    checkEntries d.blockCount (d.block 0) [0, 1, 2, 3] false = some true := by
  obtain ⟨index, hmem, htype⟩ := h.protective
  have hany : [0, 1, 2, 3].any (fun index =>
      (mbrEntry (d.block 0) index).type == mbrTypeProtective) = true :=
    List.any_eq_true.mpr ⟨index, hmem, beq_iff_eq.mpr htype⟩
  rw [checkEntries_eq, if_pos h.entries, Bool.false_or, hany]

/-- The boot record of the disk is a partition table itself: as one that protects another, but none
of its entries is the protective one. -/
structure PlainMbr (d : Device) : Prop where
  blocks : 2 ≤ d.blockCount
  signature : hasSignature (d.block 0) = true
  noFileSystem : fileSystemBootSector (d.block 0) = false
  entries : ∀ index ∈ [0, 1, 2, 3], (mbrEntry (d.block 0) index).Plausible d.blockCount
  plain : ∀ index ∈ [0, 1, 2, 3], (mbrEntry (d.block 0) index).type ≠ mbrTypeProtective

theorem PlainMbr.checkEntries (h : PlainMbr d) :
    checkEntries d.blockCount (d.block 0) [0, 1, 2, 3] false = some false := by
  have hnone : [0, 1, 2, 3].any (fun index =>
      (mbrEntry (d.block 0) index).type == mbrTypeProtective) = false :=
    List.any_eq_false.mpr fun index hindex htype => h.plain index hindex (beq_iff_eq.mp htype)
  rw [checkEntries_eq, if_pos h.entries, Bool.false_or, hnone]

theorem plainMbr_of_checkEntries (hblocks : 2 ≤ d.blockCount)
    (hsignature : hasSignature (d.block 0) = true)
    (hfileSystem : fileSystemBootSector (d.block 0) = false)
    (hcheck : checkEntries d.blockCount (d.block 0) [0, 1, 2, 3] false = some false) :
    PlainMbr d := by
  rw [checkEntries_eq] at hcheck
  split at hcheck
  · next hentries =>
    refine ⟨hblocks, hsignature, hfileSystem, hentries, fun index hindex htype => ?_⟩
    exact List.any_eq_false.mp (Option.some.inj hcheck) index hindex (beq_iff_eq.mpr htype)
  · cases hcheck

/-! ## What `read` gives -/

/-- The tables that a disk may give. -/
inductive Lists (d : Device) : Table → Prop
  | none (h : ¬PlainMbr d) : Lists d {}
  | mbr (h : PlainMbr d) :
    Lists d (Table.of .mbr ((primaries d.block [0, 1, 2, 3]).map Prod.snd) false)
  | gpt {lba : ℕ} {h : GptHeader} (usedBackup : Bool) (hmbr : ¬PlainMbr d)
    (hvalid : ValidCopy d lba h) : Lists d (Table.of .gpt (gptListed d h) usedBackup)

/-- **`read` gives a table that the disk lists**, whichever reads fail. -/
theorem read_lists (hR : ∀ lba, R lba 1) (memory : Bool) :
    (read d.blockSize d.blockCount memory).Always d.answers R fun out =>
      out.1 = true → Lists d out.2 := by
  rw [read]
  split
  · exact fun h => nomatch h
  split
  · next hblocks => exact fun _ => .none fun hmbr => absurd hmbr.blocks (Nat.not_le.mpr hblocks)
  next hblocks =>
  split
  · exact fun h => nomatch h
  rw [Io.always_bind]
  refine always_readBlock (hR 0) (fun h => nomatch h) fun _ => ?_
  dsimp only
  split
  · next hsignature =>
    exact fun _ => .none fun hmbr => by simp [hmbr.signature, hmbr.noFileSystem] at hsignature
  next hsignature =>
  -- a check that finds anything else finds no plain boot record
  have hother (found : Option Bool) (hne : found ≠ some false)
      (hcheck : checkEntries d.blockCount (d.block 0) [0, 1, 2, 3] false = found) : ¬PlainMbr d :=
    fun hmbr => hne (hcheck.symm.trans hmbr.checkEntries)
  split
  · next hcheck => exact fun _ => .none (hother none (by decide) hcheck)
  · next hcheck =>
    have hmbr := hother (some true) (by decide) hcheck
    rw [Io.always_bind]
    refine (readGpt_listed _ hR).mono fun out hout => ?_
    cases out with
    | some table =>
      obtain ⟨h, hvalid, rfl⟩ := hout table rfl
      exact fun _ => .gpt false hmbr hvalid
    | none =>
      dsimp only
      rw [Io.always_bind]
      refine (readGpt_listed _ hR).mono fun out hout => ?_
      cases out with
      | some table =>
        obtain ⟨h, hvalid, rfl⟩ := hout table rfl
        exact fun _ => .gpt true hmbr hvalid
      | none => exact fun h => nomatch h
  · next hcheck =>
    rw [Io.always_bind]
    refine (primaryLoop_listed hR _ _).mono fun out hout => ?_
    cases out with
    | some table =>
      rw [hout table rfl, addAll_empty]
      refine fun _ => .mbr (plainMbr_of_checkEntries (by omega) ?_ ?_ hcheck)
      all_goals simp_all
    | none => exact fun h => nomatch h

/-! ## How many reads it makes -/

theorem readBlock_atMost (lba : ℕ) : (readBlock lba).AtMost 1 := fun _ => trivial

theorem logicalLoop_atMost (base length : ℕ) :
    ∀ (step ebr number : ℕ) (table : Table),
      (logicalLoop base length step ebr number table).AtMost step
  | 0, _, _, _ => Io.atMost_pure 0 _
  | step + 1, ebr, number, table => by
    rw [logicalLoop, Nat.add_comm]
    refine (readBlock_atMost ebr).bind fun block => ?_
    cases block with
    | none => exact Io.atMost_pure _ _
    | some block =>
      dsimp only
      split
      · exact Io.atMost_pure _ _
      · split
        · exact Io.atMost_pure _ _
        · exact logicalLoop_atMost base length step _ _ _

theorem primaryLoop_atMost (block : Bytes) :
    ∀ (indices : List ℕ) (table : Table),
      (primaryLoop block indices table).AtMost (indices.length * maxLogical)
  | [], _ => Io.atMost_pure _ _
  | index :: rest, table => by
    have hrest : rest.length * maxLogical ≤ (index :: rest).length * maxLogical :=
      Nat.mul_le_mul_right _ (Nat.le_succ _)
    rw [primaryLoop]
    split
    · exact (primaryLoop_atMost block rest _).mono hrest
    split
    · rw [List.length_cons, Nat.succ_mul, Nat.add_comm]
      refine (logicalLoop_atMost _ _ maxLogical _ _ _).bind fun out => ?_
      cases out with
      | none => exact Io.atMost_pure _ _
      | some table => exact primaryLoop_atMost block rest table
    · exact (primaryLoop_atMost block rest _).mono hrest

theorem arrayLoop_atMost (blockBytes blocks lba entryBytes : ℕ) :
    ∀ (left at_ : ℕ) (crc : UInt32) (remaining index : ℕ) (table : Table),
      (arrayLoop blockBytes blocks lba entryBytes left at_ crc remaining index table).AtMost left
  | 0, _, _, _, _, _ => Io.atMost_pure _ _
  | left + 1, at_, crc, remaining, index, table => by
    rw [arrayLoop, Nat.add_comm]
    refine (readBlock_atMost _).bind fun block => ?_
    cases block with
    | none => exact Io.atMost_pure _ _
    | some block => exact arrayLoop_atMost blockBytes blocks lba entryBytes left _ _ _ _ _

/-- An array of at most one mebibyte is in at most 2048 blocks of 512 bytes or more. -/
theorem readGpt_atMost {blockBytes : ℕ} (hsize : 512 ≤ blockBytes) (blocks lba : ℕ) :
    (readGpt blockBytes blocks lba).AtMost 2049 := by
  rw [readGpt]
  refine (readBlock_atMost lba).bind (n := 2048) fun block => ?_
  cases block with
  | none => exact Io.atMost_pure _ _
  | some block =>
    dsimp only
    split
    · exact Io.atMost_pure _ _
    · next h _ =>
      split
      · exact Io.atMost_pure _ _
      · next hrange =>
        have hbytes := (not_not.mp hrange).2.2.2.2.1
        have hblocks : h.arrayBlocks blockBytes ≤ 2048 := by
          refine Nat.le_of_lt_succ (Nat.div_lt_of_lt_mul ?_)
          have : maxGptArray = 1048576 := rfl
          omega
        refine (((arrayLoop_atMost blockBytes blocks _ _ _ _ _ _ _ _).mono hblocks).bind (n := 0)
          fun out => ?_)
        split
        · exact Io.atMost_pure _ _
        · split
          · exact Io.atMost_pure _ _
          · exact Io.atMost_pure _ _

/-- **`read` makes at most 4099 reads**, even of a chain that leads back to itself. -/
theorem read_atMost (blockBytes blocks : ℕ) (memory : Bool) :
    (read blockBytes blocks memory).AtMost 4099 := by
  rw [read]
  split
  · exact Io.atMost_pure _ _
  · next hsize =>
    split
    · exact Io.atMost_pure _ _
    split
    · exact Io.atMost_pure _ _
    -- one for the boot record, then two tables or the chains of four entries
    refine (readBlock_atMost 0).bind (n := 4098) fun block => ?_
    cases block with
    | none => exact Io.atMost_pure _ _
    | some block =>
      dsimp only
      split
      · exact Io.atMost_pure _ _
      split
      · exact Io.atMost_pure _ _
      · refine (readGpt_atMost (by omega) blocks 1).bind (n := 2049) fun out => ?_
        cases out with
        | some table => exact Io.atMost_pure _ _
        | none =>
          refine (readGpt_atMost (by omega) blocks _).bind (n := 0) fun out => ?_
          cases out with
          | some table => exact Io.atMost_pure _ _
          | none => exact Io.atMost_pure _ _
      · refine ((primaryLoop_atMost block [0, 1, 2, 3] _).bind (n := 0) fun out => ?_).mono
          (by decide)
        cases out with
        | some table => exact Io.atMost_pure _ _
        | none => exact Io.atMost_pure _ _

/-! ## Partitions lie inside the disk -/

/-- The partition has a block, and its blocks are on a disk of `blocks` blocks. -/
def Entry.Inside (blocks : ℕ) (e : Entry) : Prop := 1 ≤ e.count ∧ e.first + e.count ≤ blocks

theorem logicals_inside {block : ℕ → Bytes} {base length : ℕ} :
    ∀ {step ebr number : ℕ} {e : Entry}, e ∈ logicals block base length step ebr number →
      e.Inside (base + length)
  | 0, _, _, _, he => nomatch he
  | step + 1, ebr, number, e, he => by
    rw [logicals] at he
    split at he
    · cases he
    rcases List.mem_append.mp he with hfound | hrest
    · rw [Option.mem_toList, logicalAt] at hfound
      split at hfound
      · next hin =>
        obtain rfl := Option.some.inj hfound
        exact ⟨Nat.one_le_iff_ne_zero.mpr hin.2.1, hin.2.2.2⟩
      · cases hfound
    · split at hrest
      · cases hrest
      · exact logicals_inside hrest

theorem primariesAt_inside {index : ℕ} {e : Entry}
    (hentry : (mbrEntry (d.block 0) index).Plausible d.blockCount)
    (htype : (mbrEntry (d.block 0) index).type ≠ mbrTypeProtective)
    (he : e ∈ primariesAt d.block index) : e.Inside d.blockCount := by
  rw [primariesAt] at he
  split at he
  · cases he
  · next hused =>
    have hin := (hentry.2.resolve_left hused).resolve_left htype
    split at he
    · have := logicals_inside he
      exact ⟨this.1, Nat.le_trans this.2 hin.2.2⟩
    · obtain rfl := List.mem_singleton.mp he
      exact ⟨Nat.one_le_iff_ne_zero.mpr hin.2.1, hin.2.2⟩

theorem gptEntry_inside {blocks index : ℕ} {entry : Bytes} {e : Entry}
    (he : gptEntry blocks entry index = some e) : e.Inside blocks := by
  rw [gptEntry] at he
  split at he
  · cases he
  split at he
  · cases he
  · next hin =>
    obtain rfl := Option.some.inj he
    refine ⟨Nat.le_add_left 1 _, ?_⟩
    simp only
    omega

/-- Every partition that a disk lists lies inside it. -/
theorem Lists.inside {t : Table} (h : Lists d t) {e : Entry} (he : e ∈ t.entries) :
    e.Inside d.blockCount := by
  cases h with
  | none => cases he
  | mbr hmbr =>
    have he := List.mem_of_mem_take he
    obtain ⟨⟨index, e⟩, hmem, rfl⟩ := List.mem_map.mp he
    obtain ⟨index, hindex, hpair⟩ := List.mem_flatMap.mp hmem
    obtain ⟨e, he, ⟨⟩⟩ := List.mem_map.mp hpair
    exact primariesAt_inside (hmbr.entries index hindex) (hmbr.plain index hindex) he
  | gpt usedBackup hmbr hvalid =>
    have he := List.mem_of_mem_take he
    obtain ⟨i, -, he⟩ := List.mem_filterMap.mp he
    exact gptEntry_inside he

/-! ## Windows are confined -/

/-- What a window asks of the disk lies inside the partition. -/
theorem Entry.Inside.request {blocks : ℕ} {e : Entry} (h : e.Inside blocks)
    (hblocks : blocks < Word.size) {first count f n : ℕ} {buffer : Bool}
    (hrequest : e.window.request first count buffer = .ok (f, n)) :
    f = e.first + first ∧ n = count ∧ f + n ≤ e.first + e.count := by
  have hend := h.2
  rw [Window.request] at hrequest
  split at hrequest
  · cases hrequest
  split at hrequest
  · cases hrequest
  · next hin =>
    have hin : first ≤ e.count ∧ count ≤ e.count - first := by
      have : e.window.count = e.count := rfl
      omega
    obtain ⟨rfl, rfl⟩ := Prod.mk.inj (Except.ok.inj hrequest)
    have hadd : Word.add e.window.first first = e.first + first := by
      exact Word.add_of_lt (by have : e.window.first = e.first := rfl; omega)
    exact ⟨hadd, rfl, by rw [hadd]; omega⟩

/-- What is read through a window are bytes of the partition. -/
theorem Entry.Inside.readBlocks {blocks : ℕ} {e : Entry} (h : e.Inside blocks)
    (hblocks : blocks < Word.size) (disk : Device) (first count : ℕ) (buffer : Bool)
    {content : Bytes} (hsame : ∀ x, e.first * disk.blockSize ≤ x →
      x < (e.first + e.count) * disk.blockSize → content x = disk.content x) :
    let r := e.window.readBlocks disk first count buffer
    let r' := e.window.readBlocks { disk with content } first count buffer
    r'.1 = r.1 ∧ (∀ j < r.1.transferred, r'.2.1 j = r.2.1 j) ∧ r.2.2.content = disk.content := by
  simp only [Window.readBlocks]
  split
  · exact ⟨rfl, fun _ _ => rfl, rfl⟩
  · next f n hrequest =>
    obtain ⟨rfl, rfl, hend⟩ := h.request hblocks hrequest
    have hstart := Nat.mul_le_mul_right disk.blockSize (Nat.le_add_right e.first first)
    have hstop := Nat.mul_le_mul_right disk.blockSize hend
    rw [Nat.add_mul _ n] at hstop
    simp only [Device.readBlocks]
    split
    · exact ⟨rfl, fun _ _ => rfl, rfl⟩
    split
    · exact ⟨rfl, fun _ _ => rfl, rfl⟩
    · refine ⟨rfl, fun j (hj : j < n * disk.blockSize) => hsame _ ?_ ?_, rfl⟩
      all_goals omega

/-- **Partitions are confined.** Whatever the disk holds and whichever reads fail, `read` ends
after at most 4099 reads. When it returns true, every entry of its table has a block and lies
inside the disk; all that a window onto the entry asks of the disk, whatever it is asked itself,
lies inside the entry: what a read through it gives depends on the bytes of the entry only, and a
write through it changes no byte elsewhere. -/
theorem read_confined (d : Device) (memory : Bool) (hblocks : d.blockCount < Word.size) :
    (runDevice (read d.blockSize d.blockCount memory) d).2.accesses ≤ d.accesses + 4099 ∧
      ((runDevice (read d.blockSize d.blockCount memory) d).1.1 = true →
        ∀ e ∈ (runDevice (read d.blockSize d.blockCount memory) d).1.2.entries,
          1 ≤ e.count ∧ e.first + e.count ≤ d.blockCount ∧
          ∀ first count buffer,
            (∀ f n, e.window.request first count buffer = .ok (f, n) →
              e.first ≤ f ∧ f + n ≤ e.first + e.count) ∧
            (∀ (disk : Device) (content : Bytes),
              (∀ x, e.first * disk.blockSize ≤ x → x < (e.first + e.count) * disk.blockSize →
                content x = disk.content x) →
              let r := e.window.readBlocks disk first count buffer
              let r' := e.window.readBlocks { disk with content } first count buffer
              r'.1 = r.1 ∧ (∀ j < r.1.transferred, r'.2.1 j = r.2.1 j) ∧
                r.2.2.content = disk.content) ∧
            ∀ (disk : Device) (data : Bytes) (x : ℕ),
              x < e.first * disk.blockSize ∨ (e.first + e.count) * disk.blockSize ≤ x →
              (e.window.writeBlocks disk first count buffer data).2.content x =
                disk.content x) := by
  refine ⟨runDevice_accesses (read_atMost _ _ memory), fun htrue e he => ?_⟩
  have hlists := (runDevice_of_always
    (read_lists (d := d) (R := fun _ _ => True) (fun _ => trivial) memory)).1 htrue
  have hinside := hlists.inside he
  refine ⟨hinside.1, hinside.2, fun first count buffer => ⟨fun f n hrequest => ?_,
    fun disk content => hinside.readBlocks hblocks disk first count buffer, ?_⟩⟩
  · obtain ⟨rfl, rfl, hend⟩ := hinside.request hblocks hrequest
    exact ⟨Nat.le_add_right _ _, hend⟩
  · intro disk data x hx
    rw [Window.writeBlocks]
    split
    · rfl
    · next f n hrequest =>
      obtain ⟨rfl, rfl, hend⟩ := hinside.request hblocks hrequest
      have hstart := Nat.mul_le_mul_right disk.blockSize (Nat.le_add_right e.first first)
      have hstop := Nat.mul_le_mul_right disk.blockSize hend
      rw [Nat.add_mul _ n] at hstop
      -- the request is inside the partition, and `x` is not
      have houtside : x < (e.first + first) * disk.blockSize ∨
          (e.first + first) * disk.blockSize + n * disk.blockSize ≤ x := by omega
      rw [Device.writeBlocks]
      split
      · rfl
      split
      · exact Bytes.splice_outside houtside
      · exact Bytes.splice_outside houtside

/-- A disk with two primary partitions and an extended one whose boot record leads back to
itself. -/
def loopingDisk : Device where
  blockSize := 512
  blockCount := 64
  content := .ofTable [(450, 0x83), (454, 1), (458, 7), (466, 0x05), (470, 16), (474, 32),
    (482, 0x83), (486, 8), (490, 4), (510, 0x55), (511, 0xAA),
    (16 * 512 + 450, 0x83), (16 * 512 + 454, 1), (16 * 512 + 458, 2), (16 * 512 + 466, 0x05),
    (16 * 512 + 470, 16), (16 * 512 + 510, 0x55), (16 * 512 + 511, 0xAA),
    (32 * 512 + 450, 0x83), (32 * 512 + 454, 1), (32 * 512 + 458, 2), (32 * 512 + 466, 0x05),
    (32 * 512 + 470, 16), (32 * 512 + 510, 0x55), (32 * 512 + 511, 0xAA)]
  faults _ := none
  accesses := 0

set_option maxRecDepth 100000 in
theorem read_confined_looping :
    (runDevice (read 512 64 true) loopingDisk).1.1 = true ∧
      ∀ e ∈ (runDevice (read 512 64 true) loopingDisk).1.2.entries, e.first + e.count ≤ 64 :=
  have htrue : (runDevice (read 512 64 true) loopingDisk).1.1 = true := by decide +kernel
  ⟨htrue, fun e he => ((read_confined loopingDisk true (by decide)).2 htrue e he).2.1⟩

/-! ## GUID partition tables -/

theorem ValidCopy.unique {lba : ℕ} {h h' : GptHeader} (hvalid : ValidCopy d lba h)
    (hvalid' : ValidCopy d lba h') : h = h' := hvalid.header.trans hvalid'.header.symm

/-- When no read fails, a copy is read as it is listed when it is valid, and not otherwise. -/
theorem readGpt_exact {lba : ℕ} (hR : ∀ lba, R lba 1) (hlba : lba < d.blockCount) :
    (readGpt d.blockSize d.blockCount lba).Always d.exact R fun out =>
      (∀ h, ValidCopy d lba h → out = some (Table.of .gpt (gptListed d h) false)) ∧
        ((¬ ∃ h, ValidCopy d lba h) → out = none) := by
  have hlisted := (readGpt_listed (d := d) lba hR).fewer fun _ _ _ => Device.exact_answers
  by_cases hex : ∃ h, ValidCopy d lba h
  · obtain ⟨h, hvalid⟩ := hex
    refine (hlisted.and (readGpt_succeeds hR hlba hvalid)).mono fun out hout => ⟨?_, ?_⟩
    · intro h' hvalid'
      obtain ⟨t, rfl⟩ := Option.isSome_iff_exists.mp hout.2
      obtain ⟨h'', hvalid'', rfl⟩ := hout.1 t rfl
      rw [hvalid'.unique hvalid'']
    · exact fun hnone => (hnone ⟨h, hvalid⟩).elim
  · refine hlisted.mono fun out hout => ⟨fun h hvalid => (hex ⟨h, hvalid⟩).elim, fun _ => ?_⟩
    refine Option.eq_none_iff_forall_ne_some.mpr fun t ht => ?_
    obtain ⟨h, hvalid, -⟩ := hout t ht
    exact hex ⟨h, hvalid⟩

/-- What `read` does on a disk with a protective boot record: the three cases. -/
theorem read_protective (hsize : 512 ≤ d.blockSize ∧ d.blockSize ≤ 4096) (hcount : 2 ≤ d.blockCount)
    (hmbr : ProtectiveMbr d) (hR : ∀ lba, R lba 1) :
    (read d.blockSize d.blockCount true).Always d.exact R fun out =>
      (∃ h, ValidCopy d 1 h ∧ out = (true, Table.of .gpt (gptListed d h) false)) ∨
      (¬ ∃ h, ValidCopy d 1 h) ∧ ((∃ h, ValidCopy d (d.blockCount - 1) h ∧
        out = (true, Table.of .gpt (gptListed d h) true)) ∨
        (¬ ∃ h, ValidCopy d (d.blockCount - 1) h) ∧ out = (false, {})) := by
  rw [read, if_neg (by omega), if_neg (by omega), Bool.not_true, if_neg Bool.false_ne_true,
    Io.always_bind]
  refine exact_readBlock (hR 0) (by omega) ?_
  dsimp only
  rw [hmbr.signature, hmbr.noFileSystem, hmbr.checkEntries, Bool.not_true, Bool.or_false,
    if_neg Bool.false_ne_true]
  dsimp only
  rw [Io.always_bind]
  refine (readGpt_exact hR (by omega)).mono fun out hout => ?_
  by_cases hprimary : ∃ h, ValidCopy d 1 h
  · obtain ⟨h, hvalid⟩ := hprimary
    rw [hout.1 h hvalid]
    exact .inl ⟨h, hvalid, rfl⟩
  · rw [hout.2 hprimary]
    dsimp only
    rw [Io.always_bind]
    refine (readGpt_exact hR (by omega)).mono fun out hout => ?_
    by_cases hbackup : ∃ h, ValidCopy d (d.blockCount - 1) h
    · obtain ⟨h, hvalid⟩ := hbackup
      rw [hout.1 h hvalid]
      exact .inr ⟨hprimary, .inl ⟨h, hvalid, rfl⟩⟩
    · rw [hout.2 hbackup]
      exact .inr ⟨hprimary, .inr ⟨hbackup, rfl⟩⟩

/-- **GUID partition tables are read as they should be.** On a disk of at least two blocks of 512
to 4096 bytes with a protective boot record, when no read fails, `read` returns true just when
the copy at block one or the one in the last block is valid. The table is that of the first when
it is valid and otherwise that of the second, which it then says: the first sixteen used
entries of the array that lie inside the disk, in order, and whether there are more. -/
theorem read_gptListed (d : Device) (hsize : 512 ≤ d.blockSize ∧ d.blockSize ≤ 4096)
    (hcount : 2 ≤ d.blockCount) (hworks : ∀ n, d.faults n = none) (hmbr : ProtectiveMbr d) :
    ((runDevice (read d.blockSize d.blockCount true) d).1.1 = true ↔
        (∃ h, ValidCopy d 1 h) ∨ ∃ h, ValidCopy d (d.blockCount - 1) h) ∧
      (∀ h, ValidCopy d 1 h → (runDevice (read d.blockSize d.blockCount true) d).1.2 =
        { scheme := .gpt
          entries := (gptListed d h).take maxEntries
          truncated := decide (maxEntries < (gptListed d h).length)
          usedBackup := false }) ∧
      ∀ h, (¬ ∃ h', ValidCopy d 1 h') → ValidCopy d (d.blockCount - 1) h →
        (runDevice (read d.blockSize d.blockCount true) d).1.2 =
          { scheme := .gpt
            entries := (gptListed d h).take maxEntries
            truncated := decide (maxEntries < (gptListed d h).length)
            usedBackup := true } := by
  have hread := (runDevice_of_exact hworks
    (read_protective (R := fun _ _ => True) hsize hcount hmbr fun _ => trivial)).1
  -- the first copy is valid, or only the second, or none
  rcases hread with ⟨h, hvalid, hout⟩ | ⟨hprimary, ⟨h, hvalid, hout⟩ | ⟨hbackup, hout⟩⟩
  · rw [hout]
    refine ⟨iff_of_true rfl (.inl ⟨h, hvalid⟩), fun h' hvalid' => ?_, fun h' hnone => ?_⟩
    · rw [hvalid'.unique hvalid]
      rfl
    · exact (hnone ⟨h, hvalid⟩).elim
  · rw [hout]
    refine ⟨iff_of_true rfl (.inr ⟨h, hvalid⟩), fun h' hvalid' => ?_, fun h' _ hvalid' => ?_⟩
    · exact (hprimary ⟨h', hvalid'⟩).elim
    · rw [hvalid'.unique hvalid]
      rfl
  · rw [hout]
    refine ⟨iff_of_false Bool.false_ne_true (not_or.mpr ⟨hprimary, hbackup⟩), ?_, ?_⟩
    · exact fun h' hvalid' => (hprimary ⟨h', hvalid'⟩).elim
    · exact fun h' _ hvalid' => (hbackup ⟨h', hvalid'⟩).elim

/-- A disk with a protective boot record and one partition in the copy at block one. -/
def gptDisk : Device where
  blockSize := 512
  blockCount := 40
  content := .ofTable [(450, 0xEE), (454, 0x01), (458, 0x27), (510, 0x55), (511, 0xAA),
    (512, 0x45), (513, 0x46), (514, 0x49), (515, 0x20), (516, 0x50), (517, 0x41), (518, 0x52),
    (519, 0x54), (524, 0x5C), (528, 0xF4), (529, 0xC7), (530, 0xD8), (531, 0xC6), (536, 0x01),
    (584, 0x02), (592, 0x01), (596, 0x80), (600, 0xD0), (601, 0x85), (602, 0x17), (603, 0x81),
    (1024, 0xAF), (1056, 0x03), (1064, 0x0A)]
  faults _ := none
  accesses := 0

set_option maxRecDepth 100000 in
theorem gptDisk_valid : ValidCopy gptDisk 1 ⟨2, 1, 128, 0x811785D0⟩ where
  signature := by decide +kernel
  headerBytes := by decide +kernel
  ownLba := by decide +kernel
  headerCrc := by decide +kernel
  header := by decide +kernel
  inRange := by decide +kernel
  arrayCrc := by decide +kernel

theorem gptDisk_protective : ProtectiveMbr gptDisk where
  signature := by decide +kernel
  noFileSystem := by decide +kernel
  entries := by decide +kernel
  protective := ⟨0, by decide, by decide +kernel⟩

set_option maxRecDepth 100000 in
theorem read_gptListed_onePartition :
    (runDevice (read gptDisk.blockSize gptDisk.blockCount true) gptDisk).1.2.entries.map
      (fun e => (e.number, e.first, e.count)) = [(1, 3, 8)] := by
  rw [(read_gptListed gptDisk ⟨by decide, by decide⟩ (by decide) (fun _ => rfl)
    gptDisk_protective).2.1 _ gptDisk_valid]
  decide +kernel

/-- A disk of one block that has nothing but a protective boot record. -/
def oneBlockDisk : Device where
  blockSize := 512
  blockCount := 1
  content := .ofTable [(450, 0xEE), (454, 0x01), (458, 0x27), (510, 0x55), (511, 0xAA)]
  faults _ := none
  accesses := 0

/-- On a disk of one block `read` returns true, although neither copy is valid. -/
theorem read_oneBlock :
    ProtectiveMbr oneBlockDisk ∧ (∀ n, oneBlockDisk.faults n = none) ∧
      (runDevice (read oneBlockDisk.blockSize oneBlockDisk.blockCount true) oneBlockDisk).1.1 =
        true ∧
      (¬ ∃ h, ValidCopy oneBlockDisk 1 h) ∧
        ¬ ∃ h, ValidCopy oneBlockDisk (oneBlockDisk.blockCount - 1) h := by
  refine ⟨⟨by decide +kernel, by decide +kernel, by decide +kernel, 0, by decide,
    by decide +kernel⟩, fun _ => rfl, by decide +kernel, ?_, ?_⟩
  · rintro ⟨h, hvalid⟩
    exact absurd hvalid.signature (by decide +kernel)
  · rintro ⟨h, hvalid⟩
    exact absurd hvalid.signature (by decide +kernel)

end ShirleysOS.Partition
