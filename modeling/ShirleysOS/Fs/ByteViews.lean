import ShirleysOS.Exfat.Streams
import ShirleysOS.Shrfs.Mounting

/-!
# Block devices as bytes

Four loops read bytes of any range from a device that has blocks, and two write them. A block that
is written in part is read first. Source: `Volume::read_bytes` and `Volume::write_bytes` of
`kernel/fs/exfat.cpp`, `read_bytes` of `ext4.cpp` and `shrfs.cpp`, and the block devices of
`kernel/fs/devfs.cpp`, which are files that end with the device.
-/

namespace ShirleysOS.Fs

open Lib Storage

/-! ## Block devices of devfs -/

/-- The size of the one scratch block. -/
abbrev maxBlockBytes : ℕ := 4096

/-- The size of the device in bytes, a 64-bit product. -/
def capacity (blockBytes blocks : ℕ) : ℕ := blocks * blockBytes % 2 ^ 64

section Devfs

variable (blockBytes blocks offset length : ℕ)

/-- The loop of `read_blocks_as_bytes`: one block at a time, `moved` bytes so far. -/
def readBlocksLoop : ℕ → ℕ → Bytes → Io Error (Result × Bytes)
  | 0, moved, out => .pure (⟨moved, .none⟩, out)
  | fuel + 1, moved, out =>
    if moved < length then
      let inside := (offset + moved) % blockBytes
      let amount := min (length - moved) (blockBytes - inside)
      .read ((offset + moved) / blockBytes) 1 fun
        | .error e => .pure (⟨moved, e⟩, out)
        | .ok scratch =>
          readBlocksLoop fuel (moved + amount) (out.splice moved amount (scratch.slice inside))
    else .pure (⟨moved, .none⟩, out)

/-- `read_blocks_as_bytes`. -/
def readBlocksAsBytes : Io Error (Result × Bytes) :=
  if blockBytes = 0 ∨ maxBlockBytes < blockBytes then .pure (⟨0, .unsupported⟩, fun _ => 0)
  else if capacity blockBytes blocks ≤ offset then .pure (⟨0, .none⟩, fun _ => 0)
  else
    let length := min length (capacity blockBytes blocks - offset)
    readBlocksLoop blockBytes offset length length 0 fun _ => 0

/-- The loop of `write_blocks_as_bytes`. A block that is written whole is not read, and the scratch
block still has what was there before. -/
def writeBlocksLoop (data : Bytes) : ℕ → ℕ → Bytes → Io Error Result
  | 0, moved, _ => .pure ⟨moved, .none⟩
  | fuel + 1, moved, scratch =>
    if moved < length then
      let block := (offset + moved) / blockBytes
      let inside := (offset + moved) % blockBytes
      let amount := min (length - moved) (blockBytes - inside)
      let put (scratch : Bytes) : Io Error Result :=
        let scratch := scratch.splice inside amount (data.slice moved)
        .write block 1 scratch fun
          | some e => .pure ⟨moved, e⟩
          | none => writeBlocksLoop data fuel (moved + amount) scratch
      if amount ≠ blockBytes then
        .read block 1 fun
          | .error e => .pure ⟨moved, e⟩
          | .ok existing => put existing
      else put scratch
    else .pure ⟨moved, .none⟩

/-- `write_blocks_as_bytes`, with what the scratch block holds before. -/
def writeBlocksAsBytes (data scratch : Bytes) : Io Error Result :=
  if blockBytes = 0 ∨ maxBlockBytes < blockBytes then .pure ⟨0, .unsupported⟩
  else if capacity blockBytes blocks ≤ offset then .pure ⟨0, .outOfRange⟩
  else
    let length := min length (capacity blockBytes blocks - offset)
    writeBlocksLoop blockBytes offset length data length 0 scratch

end Devfs

/-! ## A device that does not fail -/

/-- A program over the bytes of a device that does not fail: what it ends with, and the bytes that
it leaves. -/
def runContent {α : Type} (size count : ℕ) : Io Error α → Bytes → α × Bytes
  | .pure a, c => (a, c)
  | .read first n next, c =>
    runContent size count
      (next (if first + n ≤ count then .ok (c.slice (first * size)) else .error .outOfRange)) c
  | .write first n data next, c =>
    if first + n ≤ count then
      runContent size count (next none) (c.splice (first * size) (n * size) data)
    else runContent size count (next (some .outOfRange)) c
  | .flush next, c => runContent size count (next true) c

section Rules

variable {α : Type} {d : Device} {size count first n : ℕ} {c data : Bytes}

theorem runContent_read {next : Except Error Bytes → Io Error α} (h : first + n ≤ count) :
    runContent size count (.read first n next) c =
      runContent size count (next (.ok (c.slice (first * size)))) c := by
  rw [runContent, if_pos h]

theorem runContent_write {next : Option Error → Io Error α} (h : first + n ≤ count) :
    runContent size count (.write first n data next) c =
      runContent size count (next none) (c.splice (first * size) (n * size) data) := by
  rw [runContent, if_pos h]

/-- **The bytes are all that matters** of a device that does not fail. -/
theorem runDevice_eq_runContent (p : Io Error α) (hworks : ∀ n, d.faults n = none) :
    ((runDevice p d).1, (runDevice p d).2.content) =
      runContent d.blockSize d.blockCount p d.content := by
  induction p generalizing d with
  | pure a => rfl
  | read first n next ih =>
    rw [runDevice, runContent, Device.readBlocks]
    by_cases hin : first + n ≤ d.blockCount
    · rw [if_neg (Nat.not_lt.mpr hin), if_pos hin, hworks]
      exact ih _ hworks
    · rw [if_pos (Nat.not_le.mp hin), if_neg hin]
      exact ih _ hworks
  | write first n data next ih =>
    rw [runDevice, runContent, Device.writeBlocks]
    by_cases hin : first + n ≤ d.blockCount
    · rw [if_neg (Nat.not_lt.mpr hin), if_pos hin, hworks]
      exact ih _ hworks
    · rw [if_pos (Nat.not_le.mp hin), if_neg hin]
      exact ih _ hworks
  | flush next ih => exact ih _ hworks

end Rules

/-! ## Reading -/

section Reading

variable {d : Device} {offset length : ℕ}

theorem readBlocksLoop_exact (hblock : 0 < d.blockSize)
    (hrange : offset + length ≤ d.blockCount * d.blockSize) (fuel moved : ℕ)
    (hmoved : moved ≤ length) (hfuel : length ≤ moved + fuel) :
    (readBlocksLoop d.blockSize offset length fuel moved
      ((d.content.slice offset).trim moved)).Always d.exact anyRead
        fun out => out = (⟨length, .none⟩, (d.content.slice offset).trim length) := by
  induction fuel generalizing moved with
  | zero =>
    obtain rfl : moved = length := by omega
    rfl
  | succ fuel ih =>
    rw [readBlocksLoop]
    by_cases hlt : moved < length
    · have hstart := Nat.div_add_mod' (offset + moved) d.blockSize
      have hinside := Nat.mod_lt (offset + moved) hblock
      rw [if_pos hlt]
      refine ⟨trivial, fun r hr => ?_⟩
      rw [exact_of_touches (touches_one hlt) hrange Nat.one_pos hr]
      dsimp only
      rw [splice_range (fun j _ => ?_) rfl]
      · exact ih _ (by omega) (by omega)
      · rw [Bytes.slice_slice, Bytes.slice_apply]
        congr 1
        omega
    · rw [if_neg hlt]
      obtain rfl : moved = length := by omega
      rfl

end Reading

/-! ## Writing -/

section Writing

variable {c data scratch : Bytes} {count offset length done take : ℕ}

theorem splice_rest (h : done + take ≤ length) :
    (c.splice (offset + done) take (data.slice done)).splice (offset + (done + take))
        (length - (done + take)) (data.slice (done + take)) =
      c.splice (offset + done) (length - done) (data.slice done) := by
  rw [← Nat.add_assoc, ← Bytes.slice_slice, Bytes.splice_append,
    show take + (length - (done + take)) = length - done by omega]

/-- A block that is written back with some of the bytes put into it. -/
theorem splice_block {size : ℕ} (htake : (offset + done) % size + take ≤ size)
    (hscratch : take ≠ size → scratch = c.slice ((offset + done) / size * size)) :
    c.splice ((offset + done) / size * size) (1 * size)
        (scratch.splice ((offset + done) % size) take data) =
      c.splice (offset + done) take data := by
  have hstart := Nat.div_add_mod' (offset + done) size
  rw [Nat.one_mul]
  by_cases hwhole : take = size
  · -- nothing of the scratch block is left
    have hzero : (offset + done) % size = 0 := by omega
    rw [hzero, Nat.add_zero] at hstart
    rw [hzero, hstart, hwhole]
    refine Bytes.splice_congr fun j hj => ?_
    have hput : scratch.splice 0 size data (0 + j) = data j := Bytes.splice_add hj
    rwa [Nat.zero_add] at hput
  · rw [hscratch hwhole, Bytes.splice_slice_splice htake, hstart]

/-- The loop of `write_bytes`: whole blocks at once, the ends through a block that is read
first. -/
theorem writeBytesLoop_content (g : Exfat.Volume) (s : Exfat.State) (data : Bytes)
    (hblock : 0 < g.device.blockSize) (hrange : offset + length ≤ count * g.device.blockSize)
    (fuel done : ℕ) (c : Bytes) (hdone : done ≤ length) (hfuel : length ≤ done + fuel) :
    runContent g.device.blockSize count (Exfat.writeBytesLoop g offset length data fuel done s) c =
      ((⟨length, .none⟩, s), c.splice (offset + done) (length - done) (data.slice done)) := by
  induction fuel generalizing done c with
  | zero =>
    obtain rfl : done = length := by omega
    rw [Nat.sub_self, Bytes.splice_zero]
    rfl
  | succ fuel ih =>
    rw [Exfat.writeBytesLoop]
    by_cases hlt : done < length
    · have hstart := Nat.div_add_mod' (offset + done) g.device.blockSize
      have hwithin := Nat.mod_lt (offset + done) hblock
      rw [if_pos hlt]
      dsimp only
      split
      · next hwhole =>
        have hcount := Nat.div_mul_le_self (length - done) g.device.blockSize
        have hpos : 0 < (length - done) / g.device.blockSize := Nat.div_pos hwhole.2 hblock
        have hbytes := Nat.mul_le_mul_right g.device.blockSize hpos
        have htouches : Touches g.device.blockSize offset length
            ((offset + done) / g.device.blockSize) ((length - done) / g.device.blockSize) :=
          touches_whole hblock hwhole.1 (by omega)
        refine (runContent_write (htouches.inside hrange hpos)).trans
          ((ih _ _ (by omega) (by omega)).trans ?_)
        rw [hwhole.1, Nat.add_zero] at hstart
        rw [hstart, splice_rest (by omega)]
      · have hinside := (touches_one hlt).inside hrange Nat.one_pos
        refine (runContent_read hinside).trans ((runContent_write hinside).trans
          ((ih _ _ (by omega) (by omega)).trans ?_))
        rw [splice_block (by omega) fun _ => rfl, splice_rest (by omega)]
    · rw [if_neg hlt]
      obtain rfl : done = length := by omega
      rw [Nat.sub_self, Bytes.splice_zero]
      rfl

/-- The loop of `write_blocks_as_bytes`, whatever the scratch block holds. -/
theorem writeBlocksLoop_content {size : ℕ} (data : Bytes) (hblock : 0 < size)
    (hrange : offset + length ≤ count * size) (fuel done : ℕ) (c scratch : Bytes)
    (hdone : done ≤ length) (hfuel : length ≤ done + fuel) :
    runContent size count (writeBlocksLoop size offset length data fuel done scratch) c =
      (⟨length, .none⟩, c.splice (offset + done) (length - done) (data.slice done)) := by
  induction fuel generalizing done c scratch with
  | zero =>
    obtain rfl : done = length := by omega
    rw [Nat.sub_self, Bytes.splice_zero]
    rfl
  | succ fuel ih =>
    rw [writeBlocksLoop]
    by_cases hlt : done < length
    · have hinside := (touches_one hlt).inside hrange Nat.one_pos
      have hwithin := Nat.mod_lt (offset + done) hblock
      rw [if_pos hlt]
      dsimp only
      split
      · refine (runContent_read hinside).trans ((runContent_write hinside).trans
          ((ih _ _ _ (by omega) (by omega)).trans ?_))
        rw [splice_block (by omega) fun _ => rfl, splice_rest (by omega)]
      · next hwhole =>
        refine (runContent_write hinside).trans ((ih _ _ _ (by omega) (by omega)).trans ?_)
        rw [splice_block (by omega) fun hpart => absurd hpart hwhole,
          splice_rest (by omega)]
    · rw [if_neg hlt]
      obtain rfl : done = length := by omega
      rw [Nat.sub_self, Bytes.splice_zero]
      rfl

end Writing

/-! ## The views -/

/-- Over the device, the program ends with `a` and leaves `content`. -/
def Leaves {α : Type} (p : Io Error α) (d : Device) (a : α) (content : Bytes) : Prop :=
  ((runDevice p d).1, (runDevice p d).2.content) = (a, content)

theorem Leaves.result {α : Type} {p : Io Error α} {d : Device} {a : α} {content : Bytes}
    (h : Leaves p d a content) : (runDevice p d).1 = a := (Prod.mk.inj h).1

theorem leaves_of_exact {α : Type} {p : Io Error α} {d : Device} {a : α}
    (hworks : ∀ n, d.faults n = none) (h : p.Always d.exact anyRead fun out => out = a) :
    Leaves p d a d.content := by
  obtain ⟨hout, hsame⟩ := runDevice_of_exact hworks h
  rw [Leaves, hout, hsame.content]

/-- The block devices of devfs, up to the end of the device. -/
theorem devfs_exact {d : Device} (hworks : ∀ n, d.faults n = none) (hblock : 0 < d.blockSize)
    (hsize : d.blockCount * d.blockSize < 2 ^ 64) (hadmitted : d.blockSize ≤ maxBlockBytes)
    (offset length : ℕ) (data scratch : Bytes) :
    let cut := min length (d.blockCount * d.blockSize - offset)
    Leaves (readBlocksAsBytes d.blockSize d.blockCount offset length) d
        (⟨cut, .none⟩, (d.content.slice offset).trim cut) d.content ∧
      Leaves (writeBlocksAsBytes d.blockSize d.blockCount offset length data scratch) d
        ⟨cut, if offset < d.blockCount * d.blockSize then .none else .outOfRange⟩
        (d.content.splice offset cut data) := by
  intro cut
  have hcapacity : capacity d.blockSize d.blockCount = d.blockCount * d.blockSize :=
    Nat.mod_eq_of_lt hsize
  have hblocks : ¬(d.blockSize = 0 ∨ maxBlockBytes < d.blockSize) := by omega
  rw [readBlocksAsBytes, writeBlocksAsBytes, if_neg hblocks, if_neg hblocks, hcapacity]
  by_cases hend : d.blockCount * d.blockSize ≤ offset
  · have hcut : cut = 0 := by omega
    rw [if_pos hend, if_pos hend, if_neg (by omega), hcut, Bytes.splice_zero]
    exact ⟨rfl, rfl⟩
  · rw [if_neg hend, if_neg hend, if_pos (by omega)]
    have hrange : offset + cut ≤ d.blockCount * d.blockSize := by omega
    refine ⟨leaves_of_exact hworks (readBlocksLoop_exact hblock hrange cut 0 (Nat.zero_le _)
      (Nat.le_add_left _ _)), ?_⟩
    have hwrite := writeBlocksLoop_content data hblock hrange cut 0 d.content scratch
      (Nat.zero_le _) (Nat.le_add_left _ _)
    rwa [Nat.add_zero, Nat.sub_zero, Bytes.slice_zero, ← runDevice_eq_runContent _ hworks]
      at hwrite

/-- **Bytes of a device.** Over a device of fewer than `2 ^ 64` bytes that does not fail, the loops
of exFAT, ext4, SHRFS and devfs read the bytes of a range as they are on the device, and the two
that write put the given bytes there and change no others; those of devfs stop at its end. -/
theorem byteViews_exact {d : Device} (hworks : ∀ n, d.faults n = none) (hblock : 0 < d.blockSize)
    (hsize : d.blockCount * d.blockSize < 2 ^ 64) {offset length : ℕ}
    (hrange : offset + length ≤ d.blockCount * d.blockSize) (data scratch : Bytes) :
    let slice := (d.content.slice offset).trim length
    let changed := d.content.splice offset length data
    (∀ g s, g.device.blockSize = d.blockSize →
      Leaves (Exfat.readBytes g offset length s) d ((⟨length, .none⟩, slice), s) d.content ∧
        Leaves (Exfat.writeBytes g offset data length s) d (⟨length, .none⟩, s) changed) ∧
    Leaves (Storage.readBytes d.blockSize offset length) d (.ok slice) d.content ∧
    (d.blockSize ≤ Shrfs.bounceBytes →
      Leaves (Shrfs.readBytes d.blockSize d.blockCount offset length) d (some slice) d.content) ∧
    (d.blockSize ≤ maxBlockBytes → ∀ offset length,
      let cut := min length (d.blockCount * d.blockSize - offset)
      Leaves (readBlocksAsBytes d.blockSize d.blockCount offset length) d
          (⟨cut, .none⟩, (d.content.slice offset).trim cut) d.content ∧
        Leaves (writeBlocksAsBytes d.blockSize d.blockCount offset length data scratch) d
          ⟨cut, if offset < d.blockCount * d.blockSize then .none else .outOfRange⟩
          (d.content.splice offset cut data)) := by
  intro slice changed
  refine ⟨fun g s hg => ⟨leaves_of_exact hworks ?_, ?_⟩, ?_, fun hbounce => ?_, fun hadmitted =>
    fun offset length => devfs_exact hworks hblock hsize hadmitted offset length data scratch⟩
  · refine Io.Always.mono (Exfat.always_readBytes (.exact hg hblock) hrange) ?_
    rintro out ⟨hstate, hout | ⟨hfalse, -⟩⟩
    · exact Prod.ext hout hstate
    · exact hfalse.elim
  · have hwrite := writeBytesLoop_content g s data (hg ▸ hblock) (hg ▸ hrange) length 0 d.content
      (Nat.zero_le _) (Nat.le_add_left _ _)
    rwa [Nat.add_zero, Nat.sub_zero, Bytes.slice_zero, hg, ← runDevice_eq_runContent _ hworks]
      at hwrite
  · exact leaves_of_exact hworks (readBytes_exact hblock (fun _ _ _ => trivial) hrange)
  · exact leaves_of_exact hworks (Shrfs.readBytes_exact hblock hbounce hrange)

/-- Two blocks of three bytes. -/
def oddDevice : Device := ⟨3, 2, UInt8.ofNat, fun _ => none, 0⟩

/-- A range that begins inside a block of three bytes and goes beyond the device, and one that ends
inside a block. -/
theorem byteViews_exact_oddDevice :
    (runDevice (readBlocksAsBytes 3 2 1 9) oddDevice).1 =
        (⟨5, .none⟩, (oddDevice.content.slice 1).trim 5) ∧
      (runDevice (Storage.readBytes 3 1 4) oddDevice).1 =
        .ok ((oddDevice.content.slice 1).trim 4) := by
  obtain ⟨-, hext4, -, hdevfs⟩ := @byteViews_exact oddDevice (fun _ => rfl) (by decide) (by decide)
    1 4 (by decide) (fun _ => 0) (fun _ => 0)
  exact ⟨(hdevfs (by decide) 1 9).1.result, hext4.result⟩

/-- **A device of `2 ^ 64` bytes** has the capacity 0 for devfs, and nothing of it is read. -/
theorem readBlocksAsBytes_wraps :
    let d : Device := ⟨512, 2 ^ 55, fun _ => 7, fun _ => none, 0⟩
    0 + 1 ≤ d.blockCount * d.blockSize ∧
      (runDevice (readBlocksAsBytes d.blockSize d.blockCount 0 1) d).1.1 = ⟨0, .none⟩ ∧
      (runDevice (readBlocksAsBytes d.blockSize d.blockCount 0 1) d).1.2 0 ≠
        (d.content.slice 0).trim 1 0 := by
  decide

end ShirleysOS.Fs
