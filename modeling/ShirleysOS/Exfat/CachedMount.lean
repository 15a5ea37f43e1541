import ShirleysOS.Exfat.Effects
import ShirleysOS.Storage.Programs

/-!
# Mounting through a cache

A volume is mounted through a cache that was just set up, so what `mount` reads is what is on the
device. It writes nothing unless VolumeDirty is clear, and then VolumeDirty is on the device when
the volume is writable. From then on it stays there, whatever the driver does: no operation writes
the boot sector, and the cache can only write it back with the flag.
-/

namespace ShirleysOS.Exfat

open Lib Storage

variable {g : Volume}

/-! ## VolumeDirty -/

/-- VolumeDirty is set in a boot sector. -/
def Flagged (content : Bytes) : Prop := le16 content volumeFlagsOffset &&& volumeFlagDirty ≠ 0

theorem flagged_congr {x y : Bytes} (h : ∀ j < 512, x j = y j) : Flagged x ↔ Flagged y := by
  have hsame : le16 x volumeFlagsOffset = le16 y volumeFlagsOffset :=
    Bytes.nat_congr fun j hj => h _ (by rw [volumeFlagsOffset]; omega)
  rw [Flagged, Flagged, hsame]

/-- VolumeDirty is on the device and in every copy of the boot sector. -/
def flagged (size : ℕ) : Policy where
  buffer block data _ := block = 0 → Flagged data
  device d := d.Works ∧ d.blockSize = size ∧ Flagged d.content

variable {size : ℕ} {c : Cache} {device : Medium Error}

theorem flagged_free {block : ℕ} (h : block ≠ 0) : (flagged size).Free block :=
  fun _ _ hzero => absurd hzero h

theorem flagged_lawful (hsize : 512 ≤ size) : (flagged size).Lawful size where
  works h := h.1
  blockSize h := h.2.1
  read h := ⟨h.1.advance, h.2⟩
  load h hzero := by
    rw [hzero, Nat.zero_mul, Bytes.slice_zero]
    exact h.2.2
  write {d block data} h hdata := by
    refine ⟨h.1.advance, h.2.1, ?_⟩
    rcases Nat.eq_zero_or_pos block with rfl | hpos
    · -- the boot sector is replaced by a copy that has the flag
      refine (flagged_congr fun j hj => ?_).mp (hdata rfl)
      rw [Nat.zero_mul]
      have hcopy : d.content.splice 0 size data (0 + j) = data j :=
        Bytes.splice_add (Nat.lt_of_lt_of_le hj hsize)
      rw [Nat.zero_add] at hcopy
      exact hcopy.symm
    · have hfar : size ≤ block * size := Nat.le_mul_of_pos_left _ hpos
      exact (flagged_congr fun j hj => Bytes.splice_outside (.inl (by omega))).mpr h.2.2
  stored h := h

/-- The flags that `set_volume_flags` puts into the boot sector. -/
theorem flagged_set (content data : Bytes) (flags : ℕ) :
    Flagged ((content.splice volumeFlagsOffset 2
      (put16 (fun _ => 0) 0 (flags ||| volumeFlagDirty))).splice percentInUseOffset 1 data) := by
  have hread : le16 ((content.splice volumeFlagsOffset 2
      (put16 (fun _ => 0) 0 (flags ||| volumeFlagDirty))).splice percentInUseOffset 1 data)
        volumeFlagsOffset = (flags ||| volumeFlagDirty) % 2 ^ 16 := by
    rw [le16, Bytes.nat_splice_outside (.inl (by decide))]
    have hput : (put16 (fun _ => 0) 0 (flags ||| volumeFlagDirty)).nat 0 2 =
        (flags ||| volumeFlagDirty) % 2 ^ 16 := Bytes.nat_put
    rw [← hput]
    exact Bytes.nat_congr fun j hj => by rw [Bytes.splice_add hj, Nat.zero_add]
  have hdirty : volumeFlagDirty.testBit 1 = true := by decide
  have hbit : ((flags ||| volumeFlagDirty) % 2 ^ 16 &&& volumeFlagDirty).testBit 1 = true := by
    rw [Nat.testBit_and, Nat.testBit_mod_two_pow, Nat.testBit_or, hdirty, Bool.or_true]
    decide
  rw [Flagged, hread]
  intro hzero
  rw [hzero, Nat.zero_testBit] at hbit
  exact absurd hbit (by decide)

/-- With everything written back, a content that has the flag is flagged on the device. -/
theorem flagged_of_serves {count : ℕ} {content : Bytes} (hlow : 512 ≤ size)
    (h : Serves (working size) size count content c) (hflagged : Flagged content)
    (hstored : SameBlock size 0 c.device.content content) : (flagged size).Kept size c where
  one := h.kept.one
  bytes := h.kept.bytes
  buffers i hi hvalid hzero := by
    have hdata := h.tracked.coherent.data i hi hvalid
    rw [hzero, h.kept.bytes] at hdata
    refine (flagged_congr fun j hj => ?_).mpr hflagged
    have hsame := hdata j (Nat.lt_of_lt_of_le hj hlow)
    rwa [Nat.zero_mul, Nat.zero_add] at hsame
  device := by
    refine ⟨h.kept.device.1, h.kept.device.2, (flagged_congr fun j hj => ?_).mpr hflagged⟩
    have hsame := hstored j (Nat.lt_of_lt_of_le hj hlow)
    rwa [Nat.zero_mul, Nat.zero_add] at hsame

/-! ## The boot sector through a cache -/

section BootSector

variable {P : Policy} {size count : ℕ} {content : Bytes} {c : Cache} {s : State}
  (hP : P.Lawful size) (hlow : 512 ≤ size) (hhigh : size ≤ maxBlockBytes)
include hP hlow hhigh

/-- The boot sector is read as it is, from a block of its size or through the bounce buffer. -/
theorem readBytes_over (h : Serves P size count content c) (hg : g.device.blockSize = size)
    (hcount : 0 < count) :
    Over (readBytes g 0 512) (fun answer _ c' =>
      Serves P size count content c' ∧ ∀ j < 512, answer.2 j = content j) s c := by
  have hsmall : size < 2 ^ 64 := Nat.lt_of_le_of_lt hhigh (by decide)
  have hend : ∀ (data : Bytes) (c' : Cache), HoldsBlock size 0 data content →
      Serves P size count content c' →
      Over (readBytesLoop g 0 512 511 512 (Bytes.splice (fun _ => 0) 0 512 data))
        (fun answer _ c' =>
          Serves P size count content c' ∧ ∀ j < 512, answer.2 j = content j) s c' := by
    refine fun data c' hdata hserves => ⟨hserves, fun j hj => ?_⟩
    have hcopy : Bytes.splice (fun _ => 0) 0 512 data (0 + j) = data j := Bytes.splice_add hj
    have hsame := hdata j (Nat.lt_of_lt_of_le hj hlow)
    rw [Nat.zero_add] at hcopy
    rw [Nat.zero_mul, Nat.zero_add] at hsame
    exact hcopy.trans hsame
  rw [readBytes, readBytesLoop, if_pos (by decide)]
  simp only [hg, Nat.zero_add, Nat.zero_div, Nat.zero_mod, Nat.sub_zero, true_and]
  split
  · obtain rfl : size = 512 := by omega
    exact over_bind.mpr (h.over_readBlock hP hcount (by decide) hsmall fun data c' => hend data c')
  · refine over_bind.mpr (h.over_readBlock hP hcount (by omega) hsmall
      fun data c' hdata hserves => ?_)
    dsimp only
    rw [Nat.min_eq_right hlow, Bytes.slice_zero]
    exact hend data c' hdata hserves

/-- Less than a block is written by reading the block first. -/
theorem writeBytes_over (h : Serves P size count content c) (hg : g.device.blockSize = size)
    (hcount : 0 < count) (hfree : ∀ i, P.Free i) {offset length : ℕ} (hlength : 0 < length)
    (hinside : offset + length < size) (data : Bytes) :
    Over (writeBytes g offset data length) (fun result _ c' => result.ok = true ∧
      Serves P size count (content.splice offset length data) c') s c := by
  have hsmall : size < 2 ^ 64 := Nat.lt_of_le_of_lt hhigh (by decide)
  obtain ⟨n, rfl⟩ : ∃ n, length = n + 1 := ⟨length - 1, by omega⟩
  have hend : ∀ c', Serves P size count (content.splice offset (n + 1) data) c' →
      Over (writeBytesLoop g offset (n + 1) data n (n + 1)) (fun result _ c' => result.ok = true ∧
        Serves P size count (content.splice offset (n + 1) data) c') s c' := by
    intro c' hserves
    cases n with
    | zero => exact ⟨rfl, hserves⟩
    | succ n =>
      rw [writeBytesLoop, if_neg (Nat.lt_irrefl _)]
      exact ⟨rfl, hserves⟩
  rw [writeBytes, writeBytesLoop, if_pos hlength]
  have hoffset : offset < size := by omega
  simp only [hg, Nat.add_zero, Nat.div_eq_of_lt hoffset, Nat.mod_eq_of_lt hoffset, Nat.sub_zero,
    Nat.zero_add]
  rw [if_neg (by omega), Nat.min_eq_right (by omega)]
  refine over_bind.mpr (h.over_readBlock hP hcount (by omega) hsmall fun bounce c' hbounce hread =>
    over_bind.mpr (hread.over_writeBlock hP hcount (by omega) hsmall (fun i => hfree _)
      fun c' hserves => hend c' ?_))
  -- writing back the changed copy of the block changes just the bytes in question
  have hcopy : content.splice (0 * size) size (bounce.splice offset (n + 1) (data.slice 0)) =
      content.splice offset (n + 1) data := by
    rw [Nat.zero_mul, Bytes.slice_zero]
    have hsplice : content.splice 0 size (bounce.splice offset (n + 1) data) =
        content.splice 0 size ((content.slice 0).splice offset (n + 1) data) := by
      refine Bytes.splice_congr fun j hj => ?_
      have hsame := hbounce j hj
      rw [Nat.zero_mul, Nat.zero_add] at hsame
      rw [Bytes.slice_zero, Bytes.splice, Bytes.splice, hsame]
    rw [hsplice, Bytes.splice_slice_splice (by omega), Nat.zero_add]
  rw [← hcopy]
  exact hserves

/-- **VolumeDirty goes to the device.** -/
theorem markDirty_over (h : Serves P size count content c) (hg : g.device.blockSize = size)
    (hcount : 0 < count) :
    Over (markDirty g) (fun marked _ c' => marked = true ∧ (flagged size).Kept size c') s c := by
  have hW := working_lawful size
  have hfree : ∀ i, (working size).Free i := fun _ _ _ => trivial
  have hflags : volumeFlagsOffset + 2 < size := Nat.lt_of_lt_of_le (by decide) hlow
  have hpercent : percentInUseOffset + 1 < size := Nat.lt_of_lt_of_le (by decide) hlow
  refine over_bind.mpr (over_bind.mpr ((writeBytes_over hW hlow hhigh (h.working hP) hg hcount hfree
    (by decide) hflags _).mono fun written s' c' ⟨hok, hserves⟩ => ?_))
  rw [if_neg (by rw [hok]; decide), if_neg (by decide)]
  refine over_bind.mpr ((writeBytes_over hW hlow hhigh hserves hg hcount hfree (by decide) hpercent
    _).mono fun written s' c' ⟨hok, hserves⟩ => ?_)
  refine over_pure.mpr ?_
  rw [if_pos hok]
  exact hserves.over_flush hW fun c' hserves hstored =>
    ⟨rfl, flagged_of_serves hlow hserves (flagged_set _ _ _) (hstored 0 hcount)⟩

theorem readBoot_over (h : Serves P size count content c) (hdevice : device.blockSize = size) :
    Over (readBoot device) (fun result _ c' => Serves P size count content c' ∧
      ∀ boot, result = .ok boot → boot.check device = none ∧
        (0 < count → boot.flags = le16 content volumeFlagsOffset)) s c := by
  have herror : ∀ {e : MountError} {c' : Cache}, Serves P size count content c' →
      Serves P size count content c' ∧ ∀ boot, (.error e : Except MountError Boot) = .ok boot →
        boot.check device = none ∧ (0 < count → boot.flags = le16 content volumeFlagsOffset) :=
    fun hserves => ⟨hserves, fun _ hboot => nomatch hboot⟩
  have hfirst : Over (readBytes (Boot.volume ⟨0, 0, 0, 0, 0, 0, 0, 0, 0, 0, 0⟩ 0 device) 0 512)
      (fun answer _ c' => Serves P size count content c' ∧
        (0 < count → (bootOf answer.2).flags = le16 content volumeFlagsOffset)) s c := by
    rcases Nat.eq_zero_or_pos count with hzero | hpos
    · exact ⟨h.runCache hP (silent_readBytes _ _ _), fun hpos => absurd hzero (by omega)⟩
    · refine (readBytes_over hP hlow hhigh h hdevice hpos).mono fun answer _ _ ⟨hserves, hsame⟩ =>
        ⟨hserves, fun _ => Bytes.nat_congr fun j hj => hsame _ (by omega)⟩
  -- what follows only reads, and may fail at every check
  refine over_bind.mpr (hfirst.mono fun ⟨result, boot⟩ s' c' ⟨hserves, hflags⟩ => ?_)
  dsimp only
  split
  · exact herror hserves
  split
  · exact herror hserves
  split
  · exact herror hserves
  split
  · exact herror hserves
  · rename_i hcheck
    refine hserves.over_silent hP (silent_bootSumLoop _ _ _) fun sum s' c' hserves => ?_
    cases sum with
    | none => exact herror hserves
    | some sum =>
      refine hserves.over_silent hP (silent_bootSumCheck _ _ _) fun failure s' c' hserves => ?_
      cases failure with
      | some e => exact herror hserves
      | none =>
        refine ⟨hserves, fun _ hboot => ?_⟩
        obtain rfl := Except.ok.inj hboot
        exact ⟨hcheck, hflags⟩

end BootSector

/-! ## Where things are -/

/-- The FAT lies behind the first block, and the clusters behind the FAT. -/
structure Volume.Laid (g : Volume) (size : ℕ) : Prop where
  blockSize : g.device.blockSize = size
  fat : size ≤ g.fatOffset
  heap : g.fatOffset ≤ g.heapOffset

/-- What the checks on the boot sector say about the layout. -/
theorem Boot.laid {boot : Boot} (hcheck : boot.check device = none)
    (hsize : device.blockSize ≤ maxBlockBytes) (self : ℕ) :
    (boot.volume self device).Laid device.blockSize ∧ 0 < device.blockCount := by
  rw [Boot.check] at hcheck
  split_ifs at hcheck with hrevision hshift hregion hdevice
  push Not at hshift hregion hdevice
  obtain ⟨hlow, -, -, -⟩ := hshift
  obtain ⟨-, -, -, -, hfat, -, hheap, hvolume⟩ := hregion
  have hsector : 2 ^ 9 ≤ 2 ^ boot.sectorShift := Nat.pow_le_pow_right (by decide) hlow
  have hmax : maxBlockBytes = 4096 := rfl
  have hstart : 24 * 2 ^ 9 ≤ boot.fatSector * 2 ^ boot.sectorShift := Nat.mul_le_mul hfat hsector
  refine ⟨⟨rfl, ?_, ?_⟩, Nat.pos_of_ne_zero fun hzero => ?_⟩
  · dsimp only [Boot.volume]
    omega
  · -- an active second FAT still ends before the clusters
    have hsecond : (if boot.fatCount = 2 ∧ boot.flags &&& volumeFlagActiveFat ≠ 0 then
        boot.fatSectors * 2 ^ boot.sectorShift else 0) ≤
        boot.fatSectors * boot.fatCount * 2 ^ boot.sectorShift := by
      split_ifs with htwo
      · rw [htwo.1]
        exact Nat.mul_le_mul_right _ (Nat.le_mul_of_pos_right _ (by decide))
      · exact Nat.zero_le _
    calc boot.fatSector * 2 ^ boot.sectorShift + _
        ≤ boot.fatSector * 2 ^ boot.sectorShift +
            boot.fatSectors * boot.fatCount * 2 ^ boot.sectorShift :=
          Nat.add_le_add_left hsecond _
      _ = (boot.fatSector + boot.fatSectors * boot.fatCount) * 2 ^ boot.sectorShift :=
          (Nat.add_mul _ _ _).symm
      _ ≤ boot.heapSector * 2 ^ boot.sectorShift := Nat.mul_le_mul_right _ hheap
  · rw [hzero, Nat.zero_mul, Nat.zero_mod, Nat.zero_div] at hdevice
    omega

theorem Above.ne_zero {first : ℕ} (hg : g.Laid size) (hsize : 0 < size) (h : Above g first)
    (i : ℕ) : first + i ≠ 0 := by
  rw [Above, hg.blockSize] at h
  have hone : 1 ≤ g.fatOffset / size := (Nat.one_le_div_iff hsize).mpr hg.fat
  omega

/-! ## Mounting -/

/-- What `mount` leaves on a device with the content it began with: a volume that is not writable
has written nothing; a writable one has found VolumeDirty clear and set it. -/
inductive Mounted (size : ℕ) (content : Bytes) (g : Volume) (c : Cache) : Prop
  | readOnly (refused : g.writable = false) (kept : (unchanged size content).Kept size c)
  | writable (granted : g.writable = true) (clear : ¬Flagged content)
      (kept : (flagged size).Kept size c) (low : 512 ≤ size) (laid : g.Laid size)

section Mounting

variable {size count : ℕ} {content : Bytes} {c : Cache} {s : State}

theorem makeWritable_over (hlow : 512 ≤ size) (hhigh : size ≤ maxBlockBytes)
    (h : Serves (unchanged size content) size count content c) (hg : g.Laid size)
    (hcount : 0 < count) (hrefused : g.writable = false)
    (hflags : g.dirty = (le16 content volumeFlagsOffset &&& volumeFlagDirty != 0))
    (fatCount : ℕ) (wanted : Bool) :
    Over (makeWritable g fatCount wanted) (fun g' _ c' => Mounted size content g' c') s c := by
  rw [makeWritable]
  split
  · rename_i hclean
    refine over_bind.mpr ((markDirty_over (unchanged_lawful size content) hlow hhigh h hg.blockSize
      hcount).mono fun marked s' c' ⟨hmarked, hkept⟩ => ?_)
    rw [if_pos hmarked]
    refine .writable rfl (fun hflagged => ?_) hkept hlow ⟨hg.blockSize, hg.fat, hg.heap⟩
    rw [hclean.2.1, eq_comm, bne_eq_false_iff_eq] at hflags
    exact hflagged hflags
  · exact .readOnly hrefused h.kept

/-- **Mounting through a cache** that serves what is on the device. -/
theorem mount_over (h : Serves (unchanged size content) size count content c)
    (hdevice : device.blockSize = size) (hcount : device.blockCount = count) (self : ℕ)
    (wanted bounceRoom upcaseRoom : Bool) :
    Over (mount self device wanted bounceRoom upcaseRoom) (fun result _ c' =>
      match result with
      | .error _ => (unchanged size content).Kept size c'
      | .ok g => Mounted size content g c') s c := by
  have hU := unchanged_lawful size content
  rw [mount]
  split
  · exact h.kept
  rename_i hblock
  push Not at hblock
  rw [hdevice] at hblock
  obtain ⟨hlow, hhigh, -⟩ := hblock
  split
  · exact h.kept
  -- up to the last step there are only reads, which leave what the cache serves
  refine over_bind.mpr ((readBoot_over hU hlow hhigh h hdevice).mono
    fun result s' c' ⟨hserves, hboot⟩ => ?_)
  cases result with
  | error e => exact hserves.kept
  | ok boot =>
    obtain ⟨hcheck, hflags⟩ := hboot boot rfl
    obtain ⟨hlaid, hpos⟩ := Boot.laid hcheck (hdevice ▸ hhigh) self
    rw [hdevice] at hlaid
    rw [hcount] at hpos
    dsimp only
    refine hserves.over_silent hU (silent_rootLengthLoop _ _ _) fun clusters s' c' hserves => ?_
    cases clusters with
    | none => exact hserves.kept
    | some clusters =>
      refine hserves.over_silent hU (writes_modify _) fun _ s' c' hserves => ?_
      refine hserves.over_silent hU (silent_rootScanLoop _ _ _ _) fun found s' c' hserves => ?_
      split
      · rename_i bitmap table checksum
        split
        · exact hserves.kept
        refine hserves.over_silent hU (silent_loadUpcase _ _) fun upcase s' c' hserves => ?_
        cases upcase with
        | none => exact hserves.kept
        | some upcase =>
          dsimp only
          split
          · exact hserves.kept
          have hcomplete : ({ boot.volume self device with bitmap, upcase } : Volume).Laid size :=
            ⟨hlaid.blockSize, hlaid.fat, hlaid.heap⟩
          refine over_bind.mpr (makeWritable_over hlow hhigh hserves hcomplete hpos rfl ?_ _ _)
          rw [← hflags hpos]
          rfl
      · exact hserves.kept

end Mounting

/-! ## What keeps VolumeDirty -/

/-- The operations of a writable volume leave VolumeDirty where it is. -/
theorem Operation.keeps_flagged (hsize : 512 ≤ size) (hg : g.Laid size)
    (h : (flagged size).Kept size c) (op : Operation) (s : State) :
    (flagged size).Kept size (runCache (op.program g s) c).2 :=
  h.runCache (flagged_lawful hsize)
    (fun _ habove i => flagged_free (Above.ne_zero hg (by omega) habove i)) (op.above hg.heap s)

/-- The operations of a volume that is not writable change nothing. -/
theorem Operation.keeps_unchanged {content : Bytes} (hrefused : g.writable = false)
    (h : (unchanged size content).Kept size c) (op : Operation) (s : State) :
    (unchanged size content).Kept size (runCache (op.program g s) c).2 :=
  h.runCache (unchanged_lawful size content) (fun _ (hfalse : False) => hfalse.elim)
    (op.silent hrefused s)

end ShirleysOS.Exfat
