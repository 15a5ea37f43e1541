import Mathlib.Data.List.TakeWhile
import ShirleysOS.Shrfs.Volume
import ShirleysOS.Storage.ByteRange

/-!
# Mounting an image

`mount` decodes every entry, so that nothing has to be checked again afterwards. What it accepts
has its table between the header and the data, and every file inside the data and inside the
device. It does not compare the beginning of the data with the size of the image, and a size that
is smaller than the offset of the table wraps the difference that is compared: an image without
files may say that its data begin behind its end. Source: `kernel/fs/shrfs.cpp`.
-/

namespace ShirleysOS.Shrfs

open Lib Storage

variable {d : Device} {fs : Fs} {offset length index : ℕ} {node : Node}

/-! ## Bytes and entries -/

theorem readBytesLoop_always (hblock : 0 < d.blockSize) (fuel done : ℕ) (hdone : done ≤ length)
    (hfuel : length ≤ done + fuel)
    (hrange : done = 0 ∨ offset + done ≤ d.blockCount * d.blockSize) :
    (readBytesLoop d.blockSize d.blockCount offset length fuel done
      ((d.content.slice offset).trim done)).Always d.answers anyRead fun out =>
        ∀ data, out = some data → data = (d.content.slice offset).trim length ∧
          (length = 0 ∨ offset + length ≤ d.blockCount * d.blockSize) := by
  induction fuel generalizing done with
  | zero =>
    obtain rfl : done = length := by omega
    rintro data ⟨⟩
    exact ⟨rfl, hrange⟩
  | succ fuel ih =>
    rw [readBytesLoop]
    by_cases hlt : done < length
    · have hstart := Nat.div_add_mod' (offset + done) d.blockSize
      have hwithin := Nat.mod_lt (offset + done) hblock
      rw [if_pos hlt]
      dsimp only
      split
      · exact fun data h => nomatch h
      · refine ⟨trivial, fun r hr => ?_⟩
        rcases hr with ⟨error, rfl⟩ | ⟨hinside, rfl⟩
        · exact fun data h => nomatch h
        · have hend := Nat.mul_le_mul_right d.blockSize hinside
          rw [Nat.succ_mul] at hend
          dsimp only
          rw [splice_range (fun j _ => ?_) rfl]
          · exact ih _ (by split <;> omega) (by split <;> omega) (by split <;> omega)
          · rw [Bytes.slice_slice, Bytes.slice_apply]
            congr 1
            omega
    · rw [if_neg hlt]
      obtain rfl : done = length := by omega
      rintro data ⟨⟩
      exact ⟨rfl, hrange⟩

/-- What is read is what the device holds, and it is on the device. -/
theorem readBytes_always :
    (readBytes d.blockSize d.blockCount offset length).Always d.answers anyRead fun out =>
      ∀ data, out = some data →
        data = (d.content.slice offset).trim length ∧ 0 < d.blockSize ∧
          d.blockSize ≤ bounceBytes ∧
          (length = 0 ∨ offset + length ≤ d.blockCount * d.blockSize) := by
  rw [readBytes]
  split
  · exact fun data h => nomatch h
  · next hblock =>
    have hpos : 0 < d.blockSize := by omega
    refine (readBytesLoop_always hpos length 0 (Nat.zero_le _) (Nat.le_add_left _ _)
      (.inl rfl)).mono ?_
    exact fun out h data hdata => ⟨(h data hdata).1, hpos, by omega, (h data hdata).2⟩

theorem readBytesLoop_succeeds
    (hrange : offset + length ≤ d.blockCount * d.blockSize) (fuel done : ℕ) (out : Bytes) :
    (readBytesLoop d.blockSize d.blockCount offset length fuel done out).Always d.exact anyRead
      fun out => ∃ data, out = some data := by
  induction fuel generalizing done out with
  | zero => exact ⟨_, rfl⟩
  | succ fuel ih =>
    rw [readBytesLoop]
    by_cases hlt : done < length
    · have htouches : Touches d.blockSize offset length ((offset + done) / d.blockSize) 1 :=
        touches_one hlt
      have hinside := htouches.inside hrange Nat.one_pos
      rw [if_pos hlt]
      dsimp only
      rw [if_neg (by omega)]
      refine ⟨trivial, fun r hr => ?_⟩
      rw [exact_of_touches htouches hrange Nat.one_pos hr]
      exact ih _ _
    · rw [if_neg hlt]
      exact ⟨_, rfl⟩

/-- When no access fails, the bytes of a range on the device are read. -/
theorem readBytes_exact (hblock : 0 < d.blockSize) (hbounce : d.blockSize ≤ bounceBytes)
    (hrange : offset + length ≤ d.blockCount * d.blockSize) :
    (readBytes d.blockSize d.blockCount offset length).Always d.exact anyRead fun out =>
      out = some ((d.content.slice offset).trim length) := by
  have hread := Io.Always.fewer
    (readBytes_always : (readBytes d.blockSize d.blockCount offset length).Always d.answers _ _)
    fun _ _ _ => Device.exact_answers
  have hsucceeds : (readBytes d.blockSize d.blockCount offset length).Always d.exact anyRead
      fun out => ∃ data, out = some data := by
    rw [readBytes, if_neg (by omega)]
    exact readBytesLoop_succeeds hrange length 0 _
  refine (hread.and hsucceeds).mono fun out hout => ?_
  obtain ⟨data, rfl⟩ := hout.2
  rw [(hout.1 data rfl).1]

/-- The bytes of an entry. -/
def rawEntry (fs : Fs) (c : Bytes) (index : ℕ) : Bytes :=
  (c.slice (fs.tableOffset + index * 80)).trim 80

/-- The entry of an image. -/
def entryAt (fs : Fs) (c : Bytes) (index : ℕ) : Option Node :=
  if fs.entries ≤ index then none else decodeEntry fs index (rawEntry fs c index)

/-- The image is on the device. -/
structure On (fs : Fs) (d : Device) : Prop where
  block : fs.block = d.blockSize
  blocks : fs.blocks = d.blockCount

theorem readEntry_always (h : On fs d) (index : ℕ) :
    (readEntry fs index).Always d.answers anyRead fun out =>
      ∀ node, out = some node → entryAt fs d.content index = some node ∧
        fs.tableOffset + index * 80 + 80 ≤ d.blockCount * d.blockSize := by
  rw [readEntry, entryAt, h.block, h.blocks]
  split
  · exact fun node h => nomatch h
  · rw [Io.always_bind]
    refine readBytes_always.mono fun out hout node hnode => ?_
    cases out with
    | none => cases hnode
    | some raw =>
      obtain ⟨hraw, -, -, hrange⟩ := hout raw rfl
      rw [hraw] at hnode
      exact ⟨hnode, hrange.resolve_left (by decide)⟩

theorem decodeEntry_eq_some {raw : Bytes} (h : decodeEntry fs index raw = some node) :
    node = ⟨nameIn raw 56, raw.nat 56 4 % 2 == 1, raw.nat 72 8, index, raw.nat 60 4⟩ ∧
      (nameIn raw 56).length ≤ maxName ∧ raw.nat 60 4 < fs.entries ∧
      (node.directory = false → fs.dataOffset ≤ raw.nat 64 8 ∧
        raw.nat 64 8 + raw.nat 72 8 ≤ fs.imageBytes) := by
  unfold decodeEntry at h
  dsimp only at h
  split_ifs at h with hname hparent hfile
  cases h
  refine ⟨rfl, by omega, by omega, fun hnot => ?_⟩
  dsimp only at hnot
  rw [hnot] at hfile
  simp only [Bool.not_false, true_and, not_or, Nat.not_lt] at hfile
  omega

theorem exists_zero {raw : Bytes} (h : (nameIn raw 56).length ≤ maxName) : ∃ k < 56, raw k = 0 := by
  by_contra hnone
  have hall : nameIn raw 56 = (List.range 56).map raw := by
    refine List.takeWhile_eq_self_iff.mpr fun c hc => ?_
    obtain ⟨k, hk, rfl⟩ := List.mem_map.mp hc
    exact decide_eq_true fun hzero => hnone ⟨k, List.mem_range.mp hk, hzero⟩
  rw [hall, List.length_map, List.length_range] at h
  exact absurd h (by decide)

/-! ## What is mounted -/

/-- What `mount` has made sure of. -/
structure Accepted (fs : Fs) (d : Device) : Prop where
  on : On fs d
  block : 0 < d.blockSize
  bounce : d.blockSize ≤ bounceBytes
  header : 32 ≤ fs.tableOffset
  table : fs.tableOffset + fs.entries * 80 ≤ fs.dataOffset
  image : fs.imageBytes ≤ d.blockCount * d.blockSize
  data : fs.dataOffset = d.content.nat 20 4
  size : fs.imageBytes = d.content.nat 24 8
  root : ∃ node, entryAt fs d.content 0 = some node ∧ node.directory = true
  entries : ∀ index < fs.entries, ∃ node, entryAt fs d.content index = some node ∧
    fs.tableOffset + index * 80 + 80 ≤ d.blockCount * d.blockSize

theorem sizesLoop_always (h : On fs d) (left index bytes : ℕ) :
    (sizesLoop fs left index bytes).Always d.answers anyRead fun out =>
      ∀ total, out = some total → ∀ k, index ≤ k → k < index + left →
        ∃ node, entryAt fs d.content k = some node ∧
          fs.tableOffset + k * 80 + 80 ≤ d.blockCount * d.blockSize := by
  induction left generalizing index bytes with
  | zero => exact fun _ _ k hlow hhigh => absurd hhigh (by omega)
  | succ left ih =>
    rw [sizesLoop, Io.always_bind]
    refine (readEntry_always h index).mono fun out hout => ?_
    cases out with
    | none => exact fun total h => nomatch h
    | some node =>
      refine (ih (index + 1) _).mono fun out' hrest total htotal k hlow hhigh => ?_
      by_cases hk : k = index
      · exact ⟨node, hk ▸ hout node rfl⟩
      · exact hrest total htotal k (by omega) (by omega)

theorem decodeHeader_eq_some {block blocks : ℕ} {raw : Bytes}
    (h : decodeHeader block blocks raw = some fs) :
    fs.block = block ∧ fs.blocks = blocks ∧ fs.dataOffset = raw.nat 20 4 ∧
      fs.imageBytes = raw.nat 24 8 ∧ 32 ≤ fs.tableOffset ∧
      fs.tableOffset + fs.entries * 80 ≤ fs.dataOffset ∧ fs.imageBytes ≤ blocks * block := by
  unfold decodeHeader at h
  dsimp only at h
  split_ifs at h with hmagic hbad
  cases h
  simp only [not_or, Nat.not_lt] at hbad
  obtain ⟨-, -, htable, -, hsize, -, hdata⟩ := hbad
  exact ⟨rfl, rfl, rfl, rfl, htable, hdata, Nat.le_trans hsize (Nat.mod_le _ _)⟩

theorem mount_always :
    (mount d.blockSize d.blockCount).Always d.answers anyRead fun out =>
      ∀ fs, out = some fs → Accepted fs d := by
  rw [mount, Io.always_bind]
  refine readBytes_always.mono fun out hout => ?_
  cases out with
  | none => exact fun fs h => nomatch h
  | some raw =>
    obtain ⟨hraw, hblock, hbounce, -⟩ := hout raw rfl
    dsimp only
    cases hheader : decodeHeader d.blockSize d.blockCount raw with
    | none => exact fun fs h => nomatch h
    | some fs =>
      obtain ⟨hsize, hcount, hdata, himage, h32, htable, hdevice⟩ := decodeHeader_eq_some hheader
      have hon : On fs d := ⟨hsize, hcount⟩
      -- the fields of the header are those on the device
      have hfield {o w : ℕ} (h : o + w ≤ 32) : raw.nat o w = d.content.nat o w := by
        rw [hraw]
        refine Bytes.nat_congr fun j hj => ?_
        rw [Bytes.trim_apply (by omega), Bytes.slice_zero]
      dsimp only
      rw [Io.always_bind]
      refine (readEntry_always hon 0).mono fun out hroot => ?_
      cases out with
      | none => exact fun fs h => nomatch h
      | some root =>
        dsimp only
        split
        · exact fun fs h => nomatch h
        next hdirectory =>
        rw [Io.always_bind]
        refine (sizesLoop_always hon fs.entries 0 0).mono fun out hall fs' hfs' => ?_
        cases out with
        | none => cases hfs'
        | some total =>
          cases hfs'
          have hroot' := (hroot root rfl).1
          refine ⟨⟨hsize, hcount⟩, hblock, hbounce, h32, htable, hdevice,
            hdata.trans (hfield (by omega)), himage.trans (hfield (by omega)),
            ⟨root, hroot', by simpa using hdirectory⟩, fun index hindex => ?_⟩
          exact hall total rfl index (Nat.zero_le _)
            (Nat.lt_of_lt_of_eq hindex (Nat.zero_add _).symm)

/-- When no access fails, an entry is read as it was when the image was mounted. -/
theorem readEntry_exact (h : Accepted fs d) (index : ℕ) :
    (readEntry fs index).Always d.exact anyRead fun out =>
      out = entryAt fs d.content index := by
  rw [readEntry, entryAt, h.on.block, h.on.blocks]
  split
  · exact rfl
  · next hindex =>
    obtain ⟨node, -, hrange⟩ := h.entries index (Nat.not_le.mp hindex)
    rw [Io.always_bind]
    refine (readBytes_exact h.block h.bounce hrange).mono fun out hout => ?_
    rw [hout]
    rfl

theorem entryAt_eq_some (h : entryAt fs d.content index = some node) :
    index < fs.entries ∧ decodeEntry fs index (rawEntry fs d.content index) = some node := by
  unfold entryAt at h
  split at h
  · cases h
  · exact ⟨by omega, h⟩

theorem dataOffsetOf_exact (h : Accepted fs d)
    (hrange : fs.tableOffset + index * 80 + 80 ≤ d.blockCount * d.blockSize) :
    (dataOffsetOf fs index).Always d.exact anyRead fun out =>
      out = (rawEntry fs d.content index).nat 64 8 := by
  rw [dataOffsetOf, Io.always_bind, h.on.block, h.on.blocks]
  refine (readBytes_exact h.block h.bounce hrange).mono fun out hout => ?_
  rw [hout]
  rfl

/-- When no access fails, a file of the image is read. -/
theorem read_exact (h : Accepted fs d) (hnode : entryAt fs d.content index = some node)
    (offset length : ℕ) (buffer : Bool) :
    (read fs node offset length buffer).Always d.exact anyRead fun out =>
      out.1.error ≠ .deviceError := by
  obtain ⟨hindex, hdecode⟩ := entryAt_eq_some hnode
  obtain ⟨hfields, -, -, hfile⟩ := decodeEntry_eq_some hdecode
  have hsize : node.size = (rawEntry fs d.content index).nat 72 8 := congrArg Node.size hfields
  have hself : node.index = index := congrArg Node.index hfields
  rw [read]
  split
  · exact Error.noConfusion
  next hdirectory =>
  split
  · exact Error.noConfusion
  split
  · exact Error.noConfusion
  split
  · exact Error.noConfusion
  next hend =>
  obtain ⟨hdata, himage⟩ := hfile (by simpa using hdirectory)
  have htable := h.table
  have hdevice := h.image
  have hheader := h.header
  have hentries := Nat.mul_le_mul_right 80 hindex
  rw [Nat.succ_mul] at hentries
  dsimp only
  generalize hn : (if node.size - offset < length then node.size - offset else length) = n
  -- what is read ends inside the file, and the file inside the image
  have hinside : offset + n ≤ node.size := by
    rw [← hn]
    split <;> omega
  rw [Io.always_bind, hself]
  refine (dataOffsetOf_exact h (by omega)).mono fun start hstart => ?_
  subst hstart
  rw [if_neg (by omega), Io.always_bind, h.on.block, h.on.blocks]
  refine (readBytes_exact h.block h.bounce (by omega)).mono fun out hout => ?_
  subst hout
  exact Error.noConfusion

/-- What the header and the entries say fits together, and files can be read. -/
structure Geometry (fs : Fs) (d : Device) : Prop where
  header : 32 ≤ fs.tableOffset
  table : fs.tableOffset + fs.entries * 80 ≤ fs.dataOffset
  data : fs.dataOffset ≤ fs.imageBytes
  image : fs.imageBytes ≤ d.blockCount * d.blockSize
  named : ∀ index < fs.entries, ∃ k < 56, rawEntry fs d.content index k = 0
  parent : ∀ index < fs.entries, (rawEntry fs d.content index).nat 60 4 < fs.entries
  file : ∀ index < fs.entries, (rawEntry fs d.content index).nat 56 4 % 2 ≠ 1 →
    fs.dataOffset ≤ (rawEntry fs d.content index).nat 64 8 ∧
      (rawEntry fs d.content index).nat 64 8 + (rawEntry fs d.content index).nat 72 8 ≤
        fs.imageBytes
  read : ∀ accesses index node, entryAt fs d.content index = some node →
    ∀ offset length buffer, (runDevice (read fs node offset length buffer)
      { d with faults := fun _ => none, accesses }).1.1.error ≠ .deviceError

/-- **An image that is mounted fits together** when its data begin inside it, and only then. -/
theorem mount_geometry_iff (h : (runDevice (mount d.blockSize d.blockCount) d).1 = some fs) :
    Geometry fs d ↔ d.content.nat 20 4 ≤ d.content.nat 24 8 := by
  have haccepted : Accepted fs d := (runDevice_of_always mount_always).1 fs h
  rw [← haccepted.data, ← haccepted.size]
  refine ⟨Geometry.data, fun hdata => ?_⟩
  have hdecode {index : ℕ} (hindex : index < fs.entries) :
      ∃ node, decodeEntry fs index (rawEntry fs d.content index) = some node :=
    (haccepted.entries index hindex).imp fun node hnode => (entryAt_eq_some hnode.1).2
  refine ⟨haccepted.header, haccepted.table, hdata, haccepted.image, fun index hindex => ?_,
    fun index hindex => ?_, fun index hindex hfile => ?_, ?_⟩
  · obtain ⟨node, hnode⟩ := hdecode hindex
    exact exists_zero (decodeEntry_eq_some hnode).2.1
  · obtain ⟨node, hnode⟩ := hdecode hindex
    exact (decodeEntry_eq_some hnode).2.2.1
  · obtain ⟨node, hnode⟩ := hdecode hindex
    obtain ⟨rfl, -, -, hinside⟩ := decodeEntry_eq_some hnode
    exact hinside (by simpa using hfile)
  · intro accesses index node hnode offset length buffer
    have hworks : Accepted fs { d with faults := fun _ => none, accesses } :=
      ⟨⟨haccepted.on.block, haccepted.on.blocks⟩, haccepted.block, haccepted.bounce,
        haccepted.header, haccepted.table, haccepted.image, haccepted.data, haccepted.size,
        haccepted.root, haccepted.entries⟩
    exact (runDevice_of_exact (fun _ => rfl) (read_exact hworks hnode offset length buffer)).1

/-- A device of one block with an image of a directory, a file of three bytes in it and one of none
behind it. -/
def smallImage : Device where
  blockSize := 512
  blockCount := 1
  content := Bytes.ofTable ((List.range 8).zip magicBytes ++
    [(8, 1), (12, 4), (16, 32), (20, 0x60), (21, 1), (24, 0x63), (25, 1)] ++
    [(88, 1)] ++ [(112, 97), (168, 1)] ++
    [(192, 98), (252, 1), (256, 0x60), (257, 1), (264, 3)] ++
    [(272, 99), (332, 1), (336, 0x60), (337, 1)] ++ [(352, 1), (353, 2), (354, 3)])
  faults := fun _ => none
  accesses := 0

/-- The image that is mounted from it. -/
def smallFs : Fs := ⟨512, 1, 4, 32, 352, 355, 3⟩

theorem mount_smallImage : (runDevice (mount 512 1) smallImage).1 = some smallFs := by
  decide +kernel

theorem mount_geometry_smallImage : Geometry smallFs smallImage :=
  (mount_geometry_iff (d := smallImage) mount_smallImage).mpr (by decide +kernel)

/-- A device of one block with an image that is a root directory only. -/
def rootOnly (data size : UInt8) : Device where
  blockSize := 512
  blockCount := 1
  content := Bytes.ofTable ([(8, 1), (12, 1), (16, 32), (20, data), (24, size), (88, 1)] ++
    (List.range 8).zip magicBytes)
  faults := fun _ => none
  accesses := 0

/-- The image that is mounted from such a device. -/
def rootFs (data size : ℕ) : Fs := ⟨512, 1, 1, 32, data, size, 0⟩

/-- An image is mounted whose data begin 88 bytes behind its end, and one of no bytes at all. -/
theorem mount_dataOutside :
    (runDevice (mount 512 1) (rootOnly 200 112)).1 = some (rootFs 200 112) ∧
      ¬(rootFs 200 112).dataOffset ≤ (rootFs 200 112).imageBytes ∧
      (runDevice (mount 512 1) (rootOnly 112 0)).1 = some (rootFs 112 0) := by
  decide +kernel

end ShirleysOS.Shrfs
