import ShirleysOS.Ext4.Volume

/-!
# What holds of a volume whatever is on the disk

The superblock is checked when a volume is mounted. Everything else on the disk may be anything:
the driver then fetches only blocks of the volume, and touches its buffers only where they are.
-/

namespace ShirleysOS.Ext4

open Lib Storage

/-! ## The superblock -/

/-- What the checks of the superblock ensure. -/
structure Layout.Ok (l : Layout) : Prop where
  shift : 10 ≤ l.blockShift ∧ l.blockShift ≤ 16
  count : 0 < l.blocksCount ∧ l.blocksCount < 2 ^ 48
  inodeBytes : inodeCoreBytes ≤ l.inodeBytes
  perGroup : 0 < l.inodesPerGroup
  descriptor : 32 ≤ l.descriptorBytes ∧ l.descriptorBytes ≤ l.blockBytes

variable {l : Layout} {length number logical : ℕ} {node : Bytes}

theorem Layout.inside {b within : ℕ} (hb : b < l.blocksCount)
    (hwithin : within + length ≤ l.blockBytes) :
    b * l.blockBytes + within + length ≤ l.volumeBytes := by
  have hblock := Nat.mul_le_mul_right l.blockBytes hb
  rw [Nat.succ_mul] at hblock
  unfold Layout.volumeBytes
  omega

namespace Layout.Ok

variable {l : Layout} (h : l.Ok)

include h

theorem blockBytes_le : l.blockBytes ≤ 65536 :=
  Nat.pow_le_pow_right (Nat.succ_pos 1) h.shift.2

theorem le_blockBytes : 1024 ≤ l.blockBytes :=
  Nat.pow_le_pow_right (Nat.succ_pos 1) h.shift.1

theorem blockBytes_pos : 0 < l.blockBytes := Nat.lt_of_lt_of_le (by decide) h.le_blockBytes

end Layout.Ok

theorem passed {ε α : Type} {c : Prop} [Decidable c] {e : ε} {x : Except ε α} {a : α} :
    (if c then .error e else x) = .ok a ↔ ¬c ∧ x = .ok a := by
  split
  · next hc => exact iff_of_false (fun h => nomatch h) fun h => h.1 hc
  · next hc => exact (and_iff_right hc).symm

/-- **A superblock that passes the checks.** -/
theorem superblock_ok {sb : Bytes} {deviceBytes : ℕ} (h : superblock sb deviceBytes = .ok l) :
    l.Ok ∧ l.volumeBytes ≤ deviceBytes ∧ l = superblockFields sb := by
  have hshift' : (superblockFields sb).blockShift = 10 + sb.nat 24 4 := rfl
  have hnarrow : has (superblockFields sb).incompatible incompat64bit ≠ true →
      (superblockFields sb).descriptorBytes = 32 := fun h => if_neg h
  have hbytes : 1024 ≤ (superblockFields sb).blockBytes :=
    Nat.pow_le_pow_right (Nat.succ_pos 1) (Nat.le_add_right 10 _)
  unfold superblock at h
  dsimp only at h
  generalize superblockFields sb = l' at *
  simp only [passed] at h
  obtain ⟨-, hshift, -, hinode, -, -, -, -, hgroups, hdescriptor, -, hdevice, ⟨⟩⟩ := h
  refine ⟨⟨⟨by omega, ?_⟩, ⟨by omega, by omega⟩, by omega, by omega, ?_⟩, ?_, rfl⟩
  · unfold maxBlockShift at hshift
    omega
  · by_cases hwide : has l.incompatible incompat64bit = true
    · have := not_and.mp hdescriptor hwide
      omega
    · have := hnarrow hwide
      omega
  · exact (Nat.le_div_iff_mul_le (by omega)).mp (Nat.le_of_not_lt hdevice)

/-! ## Soundness -/

/-- The size of a buffer. -/
def Buffer.capacity (l : Layout) : Buffer → ℕ
  | .iBlock => iBlockBytes
  | .block => l.blockBytes
  | .name => 256

/-- An access is inside its buffer. -/
def Access.InBounds (l : Layout) (a : Access) : Prop :=
  a.offset + a.length ≤ a.buffer.capacity l

/-- **A mounted volume, between any two steps.** -/
structure Sound (d : Device) (v : Volume) : Prop where
  device : v.deviceBlock = d.blockSize
  block : 0 < d.blockSize
  layout : v.layout.Ok
  fits : v.layout.volumeBytes ≤ d.blockCount * d.blockSize
  loaded : v.loaded.inode = 0 ∨ v.loaded.logical < logicalLimit
  extent : v.extent.physical = 0 ∨ v.extent.physical + v.extent.length ≤ v.layout.blocksCount
  listing : v.listing.position < 2 ^ 64
  touched : ∀ a ∈ v.touched, a.InBounds v.layout

/-- Every one of the `count` blocks from `first` on has a byte of the volume or of the
superblock. -/
def Near (d : Device) (l : Layout) (first count : ℕ) : Prop :=
  ∀ b, first ≤ b → b < first + count → ∃ x, x / d.blockSize = b ∧
    (x < l.volumeBytes ∨ superblockOffset ≤ x ∧ x < superblockOffset + superblockBytes)

/-- What most steps leave as it is. -/
structure Keeps (v v' : Volume) : Prop where
  self : v'.self = v.self
  deviceBlock : v'.deviceBlock = v.deviceBlock
  layout : v'.layout = v.layout
  listing : v'.listing = v.listing
  moves : v'.moves = v.moves

theorem Keeps.refl (v : Volume) : Keeps v v := ⟨rfl, rfl, rfl, rfl, rfl⟩

theorem Keeps.trans {v v' v'' : Volume} (h : Keeps v v') (h' : Keeps v' v'') : Keeps v v'' :=
  ⟨h'.self.trans h.self, h'.deviceBlock.trans h.deviceBlock, h'.layout.trans h.layout,
    h'.listing.trans h.listing, h'.moves.trans h.moves⟩

theorem Keeps.touched (v : Volume) (touched : List Access) : Keeps v { v with touched } :=
  ⟨rfl, rfl, rfl, rfl, rfl⟩

variable {d : Device} {v v' : Volume}

theorem Sound.touch (hs : Sound d v) {accesses : List Access}
    (h : ∀ a ∈ accesses, a.InBounds v.layout) :
    Sound d { v with touched := accesses ++ v.touched } :=
  { hs with
    touched := fun a ha => (List.mem_append.mp ha).elim (h a) (hs.touched a) }

theorem Sound.touchOne (hs : Sound d v) {a : Access} (h : a.InBounds v.layout) :
    Sound d { v with touched := [a] ++ v.touched } :=
  hs.touch fun _ ha => List.mem_singleton.mp ha ▸ h

theorem fetch_sound (hs : Sound d v) {offset : ℕ}
    (hrange : offset + length ≤ v.layout.volumeBytes) :
    always d.answers (Near d v.layout) (fetch offset length)
      (fun out v' => v' = v ∧
        ∀ data, out = .ok data → data = (d.content.slice offset).trim length) v := by
  rw [fetch, always_bind, always_get, always_lift, hs.device]
  refine (readBytes_always hs.block fun first count htouches b hlow hhigh => ?_).mono
    fun out hout => ⟨rfl, hout⟩
  obtain ⟨x, -, hx, hb⟩ := htouches b hlow hhigh
  exact ⟨x, hb, .inl (Nat.lt_of_lt_of_le hx hrange)⟩

theorem fillBlock_sound (hs : Sound d v) {physical : ℕ}
    (hphysical : physical < v.layout.blocksCount) :
    always d.answers (Near d v.layout) (fillBlock physical)
      (fun ok v' => Sound d v' ∧ Keeps v v' ∧ v'.extent = v.extent ∧ v'.loaded = ⟨0, 0⟩ ∧
        (ok = true → v'.block = (d.content.slice (physical * v.layout.blockBytes)).trim
          v.layout.blockBytes)) v := by
  have hcleared : Sound d { v with loaded := ⟨0, 0⟩ } := { hs with loaded := .inl rfl }
  have htouched := hcleared.touchOne (a := ⟨.block, 0, v.layout.blockBytes⟩)
    (Nat.le_of_eq (Nat.zero_add _))
  rw [fillBlock, always_bind, always_get, always_bind, always_modify, always_bind, touch,
    always_modify, always_bind]
  refine (fetch_sound htouched (Layout.inside hphysical (Nat.le_of_eq (Nat.zero_add _)))).mono
    fun out v' h => ?_
  obtain ⟨rfl, hdata⟩ := h
  cases out with
  | error short =>
    exact ⟨{ htouched with }, ⟨rfl, rfl, rfl, rfl, rfl⟩, rfl, rfl, fun h => nomatch h⟩
  | ok data =>
    exact ⟨{ htouched with }, ⟨rfl, rfl, rfl, rfl, rfl⟩, rfl, rfl, fun _ => hdata data rfl⟩

/-! ## Inodes -/

theorem descriptorOffset_inside (hl : l.Ok) {group offset : ℕ}
    (h : descriptorOffset l group = some offset) :
    offset + (if l.descriptorBytes < 64 then l.descriptorBytes else 64) ≤ l.volumeBytes := by
  unfold descriptorOffset at h
  split at h
  · cases h
  dsimp only at h
  generalize (if has l.incompatible incompatMetaBg = true ∧
    l.firstMetaBg ≤ group / (l.blockBytes / l.descriptorBytes) then _ else _) = block at h
  split at h
  · cases h
  next hblock =>
  obtain rfl := Option.some.inj h
  obtain ⟨hlow, hhigh⟩ := hl.descriptor
  have hper : 0 < l.blockBytes / l.descriptorBytes := Nat.div_pos hhigh (by omega)
  have hindex := Nat.mul_le_mul_right l.descriptorBytes (Nat.mod_lt group hper)
  have hfits := Nat.div_mul_le_self l.blockBytes l.descriptorBytes
  rw [Nat.succ_mul] at hindex
  refine Layout.inside (Nat.lt_of_not_le hblock) ?_
  split <;> omega

theorem inodeTable_inside (hl : l.Ok) {descriptor : Bytes} {table index : ℕ}
    (h : inodeTable l descriptor = some table) (hindex : index < l.inodesPerGroup) :
    table * l.blockBytes + index * l.inodeBytes + inodeCoreBytes ≤ l.volumeBytes := by
  unfold inodeTable at h
  dsimp only at h
  generalize (descriptor.nat 8 4 + if 64 ≤ l.descriptorBytes then descriptor.nat 0x28 4 * 2 ^ 32
    else 0) = start at h
  split at h
  · cases h
  next htable =>
  obtain rfl := Option.some.inj h
  have hinodes := Nat.mul_le_mul_right l.inodeBytes hindex
  rw [Nat.succ_mul] at hinodes
  have hbytes := hl.inodeBytes
  have hpos := hl.blockBytes_pos
  -- the blocks of the table have room for all its inodes
  have hround := Nat.div_add_mod' (l.inodesPerGroup * l.inodeBytes + l.blockBytes - 1) l.blockBytes
  have hrest := Nat.mod_lt (l.inodesPerGroup * l.inodeBytes + l.blockBytes - 1) hpos
  generalize (l.inodesPerGroup * l.inodeBytes + l.blockBytes - 1) / l.blockBytes = blocks at *
  have hvolume : (start + blocks) * l.blockBytes ≤ l.volumeBytes :=
    Nat.mul_le_mul_right _ (by omega)
  rw [Nat.add_mul] at hvolume
  omega

/-- What is known of an inode that was loaded. -/
structure Inode.Loadable (i : Inode) (l : Layout) (n : ℕ) : Prop where
  number : i.number = n
  pos : n ≠ 0
  size : i.size < 2 ^ 64
  short : i.directory = true → has l.incompatible incompatLargedir = false → i.size < 2 ^ 32
  fast : i.fastSymlink = true → i.symlink = true ∧ i.size < iBlockBytes

theorem decodeInode_loadable {raw : Bytes} {inode : Inode} (hpos : number ≠ 0)
    (h : decodeInode l number raw = some inode) : inode.Loadable l number := by
  unfold decodeInode at h
  split at h
  · cases h
  dsimp only at h
  split at h
  · cases h
  obtain rfl := Option.some.inj h
  have hlow : raw.nat 4 4 < 2 ^ 32 := Bytes.nat_lt
  have hhigh : raw.nat 108 4 < 2 ^ 32 := Bytes.nat_lt
  refine ⟨rfl, hpos, ?_, fun hdirectory hlargedir => ?_, fun hfast => ?_⟩
  · dsimp only
    split <;> omega
  · have htype : raw.nat 0 2 / 2 ^ 12 = 4 := by simpa [Inode.directory, Inode.type] using hdirectory
    dsimp only
    rw [if_neg (not_or.mpr ⟨by omega, by rw [hlargedir]; exact Bool.false_ne_true⟩)]
    exact hlow
  · simp only [Bool.and_eq_true, decide_eq_true_eq] at hfast
    exact ⟨hfast.1.1.1, hfast.1.1.2⟩

/-- **Loading an inode.** -/
theorem loadInode_sound (hs : Sound d v) (number : ℕ) :
    always d.answers (Near d v.layout) (loadInode number)
      (fun out v' => Sound d v' ∧ (∃ touched, v' = { v with touched }) ∧
        ∀ inode, out = some inode → inode.Loadable v.layout number) v := by
  have hnone : Sound d v ∧ (∃ touched, v = { v with touched }) ∧
      ∀ inode, (none : Option Inode) = some inode → inode.Loadable v.layout number :=
    ⟨hs, ⟨v.touched, rfl⟩, fun _ h => nomatch h⟩
  rw [loadInode, always_bind, always_get]
  dsimp only
  split
  · exact hnone
  next hnumber =>
  have hpos : number ≠ 0 := fun h => hnumber (.inl h)
  cases hdescriptor : descriptorOffset v.layout ((number - 1) / v.layout.inodesPerGroup) with
  | none => exact hnone
  | some offset =>
    dsimp only
    rw [always_bind]
    -- two fetches: the descriptor of the group, and the inode in its table
    refine (fetch_sound hs (descriptorOffset_inside hs.layout hdescriptor)).mono fun out v' h => ?_
    obtain ⟨rfl, -⟩ := h
    cases out with
    | error short => exact hnone
    | ok descriptor =>
      dsimp only
      cases htable : inodeTable v'.layout descriptor with
      | none => exact hnone
      | some table =>
        dsimp only
        rw [always_bind]
        have hinside := inodeTable_inside hs.layout htable
          (Nat.mod_lt (number - 1) hs.layout.perGroup)
        refine (fetch_sound hs hinside).mono fun out v'' h => ?_
        obtain ⟨rfl, -⟩ := h
        cases out with
        | error short => exact hnone
        | ok raw =>
          dsimp only
          rw [always_bind, touch, always_modify]
          exact ⟨hs.touchOne (Nat.le_refl 60), ⟨_, rfl⟩, fun inode h =>
            decodeInode_loadable hpos h⟩

/-! ## The blocks of a file -/

section Scans

variable {logical limit : ℕ}

theorem leafScan_looked (node : Bytes) (blocksCount logical limit left i : ℕ) :
    (leafScan node blocksCount logical limit left i).2 ≤ i + left := by
  induction left generalizing i with
  | zero => exact Nat.le_refl _
  | succ left ih =>
    have hnext := ih (i + 1)
    rw [leafScan]
    split_ifs <;> omega

/-- What a leaf finds holds the block and is in the volume, and a hole has the block in it. -/
def Leaf.Fits (blocksCount logical : ℕ) : Leaf → Prop
  | .bad => True
  | .found start length target =>
    start ≤ logical ∧ logical - start < length ∧ (target = 0 ∨ target + length ≤ blocksCount)
  | .hole limit => logical < limit

theorem leafScan_fits (node : Bytes) (blocksCount : ℕ) (hlimit : logical < limit) (left i : ℕ) :
    (leafScan node blocksCount logical limit left i).1.Fits blocksCount logical := by
  induction left generalizing i with
  | zero => exact hlimit
  | succ left ih =>
    rw [leafScan]
    split
    · change logical < _
      split <;> assumption
    next hfirst =>
    split
    · exact ih (i + 1)
    next hcount =>
    split
    · trivial
    next hinside =>
    refine ⟨Nat.le_of_not_lt hfirst, Nat.lt_of_not_le hcount, ?_⟩
    simp only [Extent.inside, Bool.not_eq_true', Bool.not_eq_false, Bool.and_eq_true,
      decide_eq_true_eq] at hinside
    unfold Extent.target
    split
    · exact .inr (by omega)
    · exact .inl rfl

theorem indexScan_looked (node : Bytes) (logical limit left i : ℕ) (chosen : Option ℕ) :
    (indexScan node logical limit left i chosen).2.2 ≤ i + left := by
  induction left generalizing i chosen with
  | zero => exact Nat.le_refl _
  | succ left ih =>
    have hnext := ih (i + 1) (some i)
    rw [indexScan]
    split
    · exact Nat.add_le_add_left (Nat.succ_pos left) i
    · omega

theorem indexScan_limit (node : Bytes) (hlimit : logical < limit) (left i : ℕ)
    (chosen : Option ℕ) :
    logical < (indexScan node logical limit left i chosen).2.1 := by
  induction left generalizing i chosen with
  | zero => exact hlimit
  | succ left ih =>
    rw [indexScan]
    split
    · split <;> assumption
    · exact ih (i + 1) (some i)

end Scans

/-- The entries of a node with a right header are inside it. -/
theorem nodeDepth_inside {nodeBytes depth : ℕ} (h : nodeDepth node nodeBytes = some depth) :
    12 + 12 * node.nat 2 2 ≤ nodeBytes := by
  unfold nodeDepth at h
  dsimp only at h
  split at h
  · cases h
  split at h
  · cases h
  omega

/-- A stretch of blocks that `map_block` answers with: it is not empty, and is a hole or in the
volume. -/
def Mapped (l : Layout) (out : Option (ℕ × ℕ)) : Prop :=
  ∀ physical run, out = some (physical, run) →
    0 < run ∧ (physical = 0 ∨ physical + run ≤ l.blocksCount)

theorem mapped_none (l : Layout) : Mapped l none := fun _ _ h => nomatch h

theorem mapped_hole {run : ℕ} (h : 0 < run) : Mapped l (some (0, run)) := by
  rintro physical run' ⟨⟩
  exact ⟨h, .inl rfl⟩

theorem mapped_seenFrom {start target : ℕ} (hhigh : logical - start < length)
    (htarget : target = 0 ∨ target + length ≤ l.blocksCount) :
    Mapped l (some (seenFrom logical start length target)) := by
  rintro physical run ⟨⟩
  refine ⟨by omega, ?_⟩
  split
  · exact .inl rfl
  · exact .inr (by omega)

/-- What finding a block of a file changes: the extent that is remembered is one of the file, and
the shared buffer is as it was or is said to hold nothing. -/
structure Finds (number : ℕ) (v v' : Volume) : Prop extends Keeps v v' where
  buffer : v'.loaded = ⟨0, 0⟩ ∨ v'.loaded = v.loaded ∧ v'.block = v.block
  extent : v'.extent = v.extent ∨ v'.extent.inode = number

theorem Finds.trans {v v' v'' : Volume} (h : Finds number v v') (h' : Finds number v' v'') :
    Finds number v v'' := by
  refine ⟨h.toKeeps.trans h'.toKeeps, ?_, ?_⟩
  · rcases h'.buffer with hcleared | ⟨hloaded, hblock⟩
    · exact .inl hcleared
    · rw [hloaded, hblock]
      exact h.buffer
  · rcases h'.extent with hsame | hnew
    · rw [hsame]
      exact h.extent
    · exact .inr hnew

theorem Finds.touched (number : ℕ) (v : Volume) (touched : List Access) :
    Finds number v { v with touched } :=
  ⟨Keeps.touched v touched, .inr ⟨rfl, rfl⟩, .inl rfl⟩

theorem Finds.remembered (v : Volume) (touched : List Access) (extent : Remembered) :
    Finds extent.inode v { v with touched, extent } :=
  ⟨⟨rfl, rfl, rfl, rfl, rfl⟩, .inr ⟨rfl, rfl⟩, .inr rfl⟩

theorem Sound.remember (hs : Sound d v) {extent : Remembered}
    (h : extent.physical = 0 ∨ extent.physical + extent.length ≤ v.layout.blocksCount) :
    Sound d { v with extent } :=
  { hs with extent := h }

theorem mapLeaf_sound (hs : Sound d v) (number : ℕ) {limit : ℕ} {buffer : Buffer}
    (hnode : 12 + 12 * node.nat 2 2 ≤ buffer.capacity v.layout) (hlimit : logical < limit) :
    always d.answers (Near d v.layout) (mapLeaf number logical node buffer limit)
      (fun out v' => Sound d v' ∧ Finds number v v' ∧ Mapped v.layout out) v := by
  rw [mapLeaf, always_bind, always_get]
  dsimp only
  have hlooked := leafScan_looked node v.layout.blocksCount logical limit (node.nat 2 2) 0
  have hfits := leafScan_fits node v.layout.blocksCount hlimit (node.nat 2 2) 0
  generalize leafScan node v.layout.blocksCount logical limit (node.nat 2 2) 0 = scan at *
  obtain ⟨answer, looked⟩ := scan
  dsimp only at hlooked hfits ⊢
  have htouched := hs.touchOne (a := ⟨buffer, 12, 12 * looked⟩)
    (Nat.le_trans (by dsimp only; omega) hnode)
  rw [always_bind, touch, always_modify]
  cases answer with
  | bad => exact ⟨htouched, Finds.touched number v _, mapped_none _⟩
  | found start length target =>
    dsimp only
    rw [always_bind, remember, always_modify]
    obtain ⟨-, hhigh, htarget⟩ := hfits
    exact ⟨htouched.remember htarget, Finds.remembered v _ ⟨number, start, length, target⟩,
      mapped_seenFrom hhigh htarget⟩
  | hole limit' =>
    dsimp only
    rw [always_bind, remember, always_modify]
    exact ⟨htouched.remember (.inl rfl),
      Finds.remembered v _ ⟨number, logical, limit' - logical, 0⟩,
      mapped_hole (Nat.sub_pos_of_lt hfits)⟩

/-- **Going down an extent tree.** -/
theorem descend_sound (hs : Sound d v) (number : ℕ) {limit : ℕ} (depth : ℕ) {buffer : Buffer}
    (hnode : 12 + 12 * node.nat 2 2 ≤ buffer.capacity v.layout) (hlimit : logical < limit) :
    always d.answers (Near d v.layout) (descend number logical depth node buffer limit)
      (fun out v' => Sound d v' ∧ Finds number v v' ∧ Mapped v.layout out) v := by
  induction depth generalizing v node buffer limit with
  | zero => exact mapLeaf_sound hs number hnode hlimit
  | succ depth ih =>
    rw [descend, always_bind, always_get]
    dsimp only
    have hlooked := indexScan_looked node logical limit (node.nat 2 2) 0 none
    have hlimit' := indexScan_limit node hlimit (node.nat 2 2) 0 none
    generalize indexScan node logical limit (node.nat 2 2) 0 none = scan at *
    obtain ⟨chosen, limit', looked⟩ := scan
    dsimp only at hlooked hlimit' ⊢
    have htouched := hs.touchOne (a := ⟨buffer, 12, 12 * looked⟩)
      (Nat.le_trans (by dsimp only; omega) hnode)
    rw [always_bind, touch, always_modify]
    -- without a child that starts before the block there is a hole
    cases chosen with
    | none =>
      dsimp only
      rw [always_bind, remember, always_modify]
      exact ⟨htouched.remember (.inl rfl),
        Finds.remembered v _ ⟨number, logical, limit' - logical, 0⟩,
        mapped_hole (Nat.sub_pos_of_lt hlimit')⟩
    | some i =>
      dsimp only
      split
      · exact ⟨htouched, Finds.touched number v _, mapped_none _⟩
      next hchild =>
      rw [always_bind]
      refine (fillBlock_sound htouched (Nat.lt_of_not_le fun h => hchild (.inr h))).mono
        fun ok v' h => ?_
      obtain ⟨hs', hkeeps, hextent, hloaded, -⟩ := h
      have hkeeps : Finds number v v' :=
        ⟨(Keeps.touched v _).trans hkeeps, .inl hloaded, .inl hextent⟩
      have hlayout : v'.layout = v.layout := hkeeps.layout
      cases ok with
      | false => exact ⟨hs', hkeeps, mapped_none _⟩
      | true =>
        rw [if_pos rfl, always_bind, always_get]
        have htouched' := hs'.touchOne (a := ⟨.block, 0, 8⟩)
          (Nat.le_trans (by decide) hs'.layout.le_blockBytes)
        rw [always_bind, touch, always_modify]
        split
        · next hdepth =>
          rw [← hlayout] at hdepth ⊢
          refine (ih htouched' (nodeDepth_inside hdepth) hlimit').mono fun out v'' h => ?_
          obtain ⟨hs'', hkeeps', hmapped⟩ := h
          exact ⟨hs'', hkeeps.trans ((Finds.touched number v' _).trans hkeeps'), hmapped⟩
        · exact ⟨htouched', hkeeps.trans (Finds.touched number v' _), mapped_none _⟩

theorem mapExtent_sound (hs : Sound d v) (inode : Inode) (hlogical : logical < logicalLimit) :
    always d.answers (Near d v.layout) (mapExtent inode logical)
      (fun out v' => Sound d v' ∧ Finds inode.number v v' ∧ Mapped v.layout out) v := by
  rw [mapExtent, always_bind, always_get]
  dsimp only
  split
  · next hhit => exact ⟨hs, Finds.touched inode.number v v.touched,
      mapped_seenFrom hhit.2.2 hs.extent⟩
  have htouched := hs.touchOne (a := ⟨.iBlock, 0, 8⟩) (show 0 + 8 ≤ 60 by decide)
  rw [always_bind, touch, always_modify]
  cases hdepth : nodeDepth inode.block iBlockBytes with
  | none => exact ⟨htouched, Finds.touched inode.number v _, mapped_none _⟩
  | some depth =>
    refine (descend_sound htouched inode.number depth (nodeDepth_inside hdepth) hlogical).mono
      fun out v' h => ?_
    exact ⟨h.1, (Finds.touched inode.number v _).trans h.2.1, h.2.2⟩

/-- The level of a block behind the direct ones, and how many blocks it spans. -/
theorem levelLoop_spans {perBlock : ℕ} (left levels span logical : ℕ)
    (hspan : span = perBlock ^ levels) {levels' span' logical' : ℕ}
    (h : levelLoop perBlock left levels span logical = some (levels', span', logical')) :
    span' = perBlock ^ levels' ∧ logical' < span' ∧ levels ≤ levels' ∧ levels' < levels + left := by
  induction left generalizing levels span logical with
  | zero => cases h
  | succ left ih =>
    rw [levelLoop] at h
    split at h
    · next hlt =>
      cases h
      exact ⟨hspan, hlt, Nat.le_refl _, by omega⟩
    · obtain ⟨hspan', hlt, hlow, hhigh⟩ := ih (levels + 1) (span * perBlock) (logical - span)
        (by rw [hspan, Nat.pow_succ]) h
      exact ⟨hspan', hlt, by omega, by omega⟩

theorem pointer_sound (hs : Sound d v) (table : ℕ) {index : ℕ}
    (hindex : index < v.layout.blockBytes / 4) :
    always d.answers (Near d v.layout) (pointer table index) (fun _ v' => v' = v) v := by
  rw [pointer, always_bind, always_get]
  dsimp only
  split
  · rfl
  split
  · rfl
  next htable =>
  rw [always_bind]
  refine (fetch_sound hs (Layout.inside (Nat.lt_of_not_le htable) (by omega))).mono
    fun out v' h => ?_
  obtain ⟨rfl, -⟩ := h
  cases out <;> rfl

/-- The index of a pointer at one level, and what is left for the levels below. -/
theorem pointer_index {n span levels : ℕ} (hpos : 0 < n) (hspan : span = n ^ (levels + 1))
    (hlogical : logical < span) : span / n = n ^ levels ∧ logical / n ^ levels < n := by
  rw [hspan, Nat.pow_succ] at hlogical
  rw [hspan, Nat.pow_succ]
  exact ⟨Nat.mul_div_cancel _ hpos, Nat.div_lt_of_lt_mul hlogical⟩

theorem pointerLoop_sound (hs : Sound d v) (levels : ℕ) {span : ℕ} (value : ℕ)
    (hspan : span = (v.layout.blockBytes / 4) ^ levels) (hlogical : logical < span) :
    always d.answers (Near d v.layout)
      (pointerLoop (v.layout.blockBytes / 4) levels span logical value) (fun _ v' => v' = v) v := by
  have hpos : 0 < v.layout.blockBytes / 4 := by
    have := hs.layout.le_blockBytes
    omega
  induction levels generalizing span logical value with
  | zero => rfl
  | succ levels ih =>
    rw [pointerLoop]
    obtain ⟨hspan', hindex⟩ := pointer_index hpos hspan hlogical
    rw [hspan', always_bind]
    refine (pointer_sound hs value hindex).mono fun out v' h => ?_
    subst h
    cases out with
    | none => rfl
    | some value => exact ih value rfl (Nat.mod_lt _ (Nat.pow_pos hpos))

/-- A block that `map_indirect` answers with is in the volume. -/
theorem mapped_inVolume (l : Layout) (value : Option ℕ) :
    Mapped l ((inVolume l value).map fun physical => (physical, 1)) := by
  intro physical run h
  obtain ⟨value', hvalue, heq⟩ := Option.map_eq_some_iff.mp h
  obtain ⟨-, hlt⟩ := Option.filter_eq_some_iff.mp hvalue
  cases heq
  exact ⟨Nat.one_pos, .inr (of_decide_eq_true hlt)⟩

theorem mapIndirect_sound (hs : Sound d v) (inode : Inode) (logical : ℕ) :
    always d.answers (Near d v.layout) (mapIndirect inode logical)
      (fun out v' => Sound d v' ∧ Finds inode.number v v' ∧
        Mapped v.layout (out.map fun physical => (physical, 1))) v := by
  rw [mapIndirect, always_bind, always_get]
  dsimp only
  split
  · next hdirect =>
    rw [always_bind, touch, always_modify]
    have hlast : logical < 12 := hdirect
    exact ⟨hs.touchOne (show 4 * logical + 4 ≤ 60 by omega), Finds.touched inode.number v _,
      mapped_inVolume v.layout (some (inode.block.nat (4 * logical) 4))⟩
  cases hlevel : levelLoop (v.layout.blockBytes / 4) 3 1 (v.layout.blockBytes / 4)
    (logical - directBlocks) with
  | none => exact ⟨hs, Finds.touched inode.number v v.touched, mapped_hole Nat.one_pos⟩
  | some level =>
    obtain ⟨levels, span, logical'⟩ := level
    obtain ⟨hspan, hlt, hlow, hhigh⟩ := levelLoop_spans 3 1 _ _ (Nat.pow_one _).symm hlevel
    have htouched := hs.touchOne (a := ⟨.iBlock, 4 * (directBlocks - 1 + levels), 4⟩)
      (show 4 * (12 - 1 + levels) + 4 ≤ 60 by omega)
    dsimp only
    rw [always_bind, touch, always_modify, always_bind]
    refine (pointerLoop_sound htouched levels _ hspan hlt).mono fun out v' h => ?_
    subst h
    exact ⟨htouched, Finds.touched inode.number v _, mapped_inVolume v.layout _⟩

/-- **Finding the block of a file.** -/
theorem mapBlock_sound (hs : Sound d v) (inode : Inode) (logical : ℕ) :
    always d.answers (Near d v.layout) (mapBlock inode logical)
      (fun out v' => Sound d v' ∧ Finds inode.number v v' ∧ Mapped v.layout out ∧
        (logicalLimit ≤ logical → out = some (0, 1))) v := by
  rw [mapBlock]
  split
  · next hlimit => exact ⟨hs, Finds.touched inode.number v v.touched, mapped_hole Nat.one_pos,
      fun _ => rfl⟩
  next hlimit =>
  split
  · refine (mapExtent_sound hs inode (Nat.lt_of_not_le hlimit)).mono fun out v' h => ?_
    exact ⟨h.1, h.2.1, h.2.2, fun h => absurd h hlimit⟩
  · rw [always_bind]
    refine (mapIndirect_sound hs inode logical).mono fun out v' h => ?_
    exact ⟨h.1, h.2.1, h.2.2, fun h => absurd h hlimit⟩

/-! ## The bytes of a file -/

theorem readInodeLoop_sound (hs : Sound d v) (inode : Inode) (offset length fuel done : ℕ)
    (out : Bytes) :
    always d.answers (Near d v.layout) (readInodeLoop inode offset length fuel done out)
      (fun _ v' => Sound d v' ∧ Keeps v v') v := by
  induction fuel generalizing v done out with
  | zero => exact ⟨hs, Keeps.refl v⟩
  | succ fuel ih =>
    rw [readInodeLoop]
    split
    · rw [always_bind, always_get]
      dsimp only
      rw [always_bind]
      refine (mapBlock_sound hs inode _).mono fun mapped v' h => ?_
      obtain ⟨hs', hfinds, hmapped, -⟩ := h
      have hkeeps := hfinds.toKeeps
      match mapped, hmapped with
      | none, _ => exact ⟨hs', hkeeps⟩
      | some (physical, run), hmapped =>
        obtain ⟨hrun, hphysical⟩ := hmapped physical run rfl
        have hagain : ∀ done' out', always d.answers (Near d v.layout)
            (readInodeLoop inode offset length fuel done' out')
            (fun _ v'' => Sound d v'' ∧ Keeps v v'') v' := by
          intro done' out'
          rw [← hkeeps.layout]
          exact (ih hs' done' out').mono fun _ v'' h => ⟨h.1, hkeeps.trans h.2⟩
        dsimp only
        split
        · exact hagain _ _
        · next hne =>
          rw [always_bind, ← hkeeps.layout]
          -- the stretch that is read ends with the run
          have hwithin := Nat.mod_lt (offset + done) hs'.layout.blockBytes_pos
          have hend : (physical + run) * v'.layout.blockBytes ≤ v'.layout.volumeBytes :=
            Nat.mul_le_mul_right _ (by rw [hkeeps.layout]; exact hphysical.resolve_left hne)
          have hone := Nat.mul_le_mul_right v'.layout.blockBytes hrun
          rw [Nat.add_mul] at hend
          refine (fetch_sound hs' ?_).mono fun data v'' h => ?_
          · split <;> omega
          · obtain ⟨rfl, -⟩ := h
            cases data with
            | error short => exact ⟨hs', hkeeps⟩
            | ok data =>
              rw [hkeeps.layout]
              exact hagain _ _
    · exact ⟨hs, Keeps.refl v⟩

/-- **Reading a file.** -/
theorem readInode_sound (hs : Sound d v) {inode : Inode} (hinode : inode.Loadable v.layout number)
    (offset length : ℕ) :
    always d.answers (Near d v.layout) (readInode inode offset length)
      (fun _ v' => Sound d v' ∧ Keeps v v') v := by
  rw [readInode]
  split
  · exact ⟨hs, Keeps.refl v⟩
  next hoffset =>
  dsimp only
  split
  · next hfast =>
    have hsize : inode.size < 60 := (hinode.fast hfast).2
    rw [always_bind, touch, always_modify]
    refine ⟨hs.touchOne ?_, Keeps.touched v _⟩
    change offset + (if _ then _ else _) ≤ 60
    split <;> omega
  · exact readInodeLoop_sound hs inode _ _ _ _ _

end ShirleysOS.Ext4
