import ShirleysOS.Ext4.Format
import ShirleysOS.Storage.ByteRange
import ShirleysOS.Text.Strings
import ShirleysOS.Vfs.Mounts

/-!
# Reading an ext4 volume

The driver's state and what it does: loading inodes, finding the block of a file through its extent
tree or its block map, reading files, and scanning directories. Three things are remembered from
one call to the next: the extent that was found last, the directory block in the shared buffer, and
where the last listing stopped. Source: `kernel/fs/ext4.cpp`.

What the driver touches of an inode's `i_block`, of the shared buffer and of an entry's name, and
how the position of a scan changes, are noted in the state; nothing depends on these notes.

A scan of a directory is a loop whose end is not obvious, so it is given a number of rounds; `none`
says that they were not enough.
-/

namespace ShirleysOS.Ext4

open Lib Storage

/-! ## State -/

/-- The buffers whose bounds matter. -/
inductive Buffer
  | iBlock
  | block
  | name
deriving DecidableEq, Repr

/-- An access to some bytes of a buffer. -/
structure Access where
  buffer : Buffer
  offset : ℕ
  length : ℕ
deriving DecidableEq, Repr

/-- `loaded_`: the inode and the logical block whose data the shared buffer holds. -/
structure Loaded where
  inode : ℕ
  logical : ℕ
deriving DecidableEq, Repr

/-- `listing_`: where the last listing stopped. -/
structure Listing where
  inode : ℕ
  index : ℕ
  position : ℕ
deriving DecidableEq, Repr

/-- `extent_`: the extent that was found last. -/
structure Remembered where
  inode : ℕ
  logical : ℕ
  length : ℕ
  physical : ℕ
deriving DecidableEq, Repr

/-- A mounted `Volume`. `self` stands for its address, and `deviceBlock` is the block size of the
device. `touched` and `moves` are notes. -/
structure Volume where
  self : ℕ
  deviceBlock : ℕ
  layout : Layout
  block : Bytes
  loaded : Loaded
  listing : Listing
  extent : Remembered
  touched : List Access
  moves : List (ℕ × ℕ)

abbrev Driver : Type → Type := StateT Volume (Io Error)

/-- Accesses are noted. -/
def touch (accesses : List Access) : Driver Unit :=
  modify fun v => { v with touched := accesses ++ v.touched }

/-- `read_bytes`. -/
def fetch (offset length : ℕ) : Driver (Except ShortRead Bytes) := do
  let v ← get
  (readBytes v.deviceBlock offset length).lift

/-- A block of the volume is read into the shared buffer: whether that succeeds. -/
def fillBlock (physical : ℕ) : Driver Bool := do
  let l := (← get).layout
  modify fun v => { v with loaded := ⟨0, 0⟩ }
  touch [⟨.block, 0, l.blockBytes⟩]
  match ← fetch (physical * l.blockBytes) l.blockBytes with
  | .error short => do
    modify fun v => { v with block := v.block.splice 0 short.transferred short.data }
    pure false
  | .ok data => do
    modify fun v => { v with block := data }
    pure true

/-! ## Inodes -/

/-- `load_inode`. -/
def loadInode (number : ℕ) : Driver (Option Inode) := do
  let l := (← get).layout
  if number = 0 ∨ l.inodesCount < number then pure none
  else
    match descriptorOffset l ((number - 1) / l.inodesPerGroup) with
    | none => pure none
    | some offset =>
      match ← fetch offset (if l.descriptorBytes < 64 then l.descriptorBytes else 64) with
      | .error _ => pure none
      | .ok descriptor =>
        match inodeTable l descriptor with
        | none => pure none
        | some table =>
          match ← fetch (table * l.blockBytes + (number - 1) % l.inodesPerGroup * l.inodeBytes)
            inodeCoreBytes with
          | .error _ => pure none
          | .ok raw => do
            touch [⟨.iBlock, 0, iBlockBytes⟩]
            pure (decodeInode l number raw)

/-- `mount` of a volume that is not mounted, on a device of `deviceBlocks` blocks; the heap may have
no memory for the bounce buffer or for the block buffer. -/
def mount (self deviceBlock deviceBlocks : ℕ) (bounceFits blockFits : Bool) :
    Io Error (Except MountError Volume) :=
  if deviceBlock < 512 ∨ maxDeviceBlock < deviceBlock ∨ deviceBlock &&& (deviceBlock - 1) ≠ 0 then
    .pure (.error .unsupported)
  else if deviceBlocks * deviceBlock % 2 ^ 64 < superblockOffset + superblockBytes then
    .pure (.error .notExt4)
  else if !bounceFits then .pure (.error .outOfMemory)
  else do
    match ← readBytes deviceBlock superblockOffset superblockBytes with
    | .error _ => .pure (.error .deviceError)
    | .ok sb =>
      match superblock sb (deviceBlocks * deviceBlock % 2 ^ 64) with
      | .error error => .pure (.error error)
      | .ok layout =>
        if !blockFits then .pure (.error .outOfMemory)
        else do
          let v : Volume := {
            self
            deviceBlock
            layout
            block := fun _ => 0
            loaded := ⟨0, 0⟩
            listing := ⟨0, 0, 0⟩
            extent := ⟨0, 0, 0, 0⟩
            touched := []
            moves := [] }
          let (root, v) ← loadInode rootInode v
          match root with
          | none => .pure (.error .corrupt)
          | some inode => .pure (if inode.directory then .ok v else .error .corrupt)

/-! ## The blocks of a file -/

/-- `extent_` is set. -/
def remember (extent : Remembered) : Driver Unit := modify fun v => { v with extent }

/-- A stretch of blocks from `start` on, seen from the block `logical` in it: the block it is in,
or zero, and how many blocks there are from there on. -/
def seenFrom (logical start length target : ℕ) : ℕ × ℕ :=
  (if target = 0 then 0 else target + (logical - start), length - (logical - start))

/-- A leaf of an extent tree. -/
def mapLeaf (number logical : ℕ) (node : Bytes) (buffer : Buffer) (limit : ℕ) :
    Driver (Option (ℕ × ℕ)) := do
  let l := (← get).layout
  let (answer, looked) := leafScan node l.blocksCount logical limit (node.nat 2 2) 0
  touch [⟨buffer, 12, 12 * looked⟩]
  match answer with
  | .bad => pure none
  | .found start length target => do
    remember ⟨number, start, length, target⟩
    pure (some (seenFrom logical start length target))
  | .hole limit => do
    remember ⟨number, logical, limit - logical, 0⟩
    pure (some (0, limit - logical))

/-- The loop of `map_extent` at a node of the given depth, whose header is right. The blocks that
the node covers end at `limit`. -/
def descend (number logical : ℕ) : ℕ → Bytes → Buffer → ℕ → Driver (Option (ℕ × ℕ))
  | 0, node, buffer, limit => mapLeaf number logical node buffer limit
  | depth + 1, node, buffer, limit => do
    let l := (← get).layout
    let (chosen, limit, looked) := indexScan node logical limit (node.nat 2 2) 0 none
    touch [⟨buffer, 12, 12 * looked⟩]
    match chosen with
    | none => do
      remember ⟨number, logical, limit - logical, 0⟩
      pure (some (0, limit - logical))
    | some i =>
      let child := childOf node i
      if child = 0 ∨ l.blocksCount ≤ child then pure none
      else do
        if ← fillBlock child then do
          let node := (← get).block
          touch [⟨.block, 0, 8⟩]
          if nodeDepth node l.blockBytes = some depth then
            descend number logical depth node .block limit
          else pure none
        else pure none

/-- `map_extent`. -/
def mapExtent (inode : Inode) (logical : ℕ) : Driver (Option (ℕ × ℕ)) := do
  let extent := (← get).extent
  if extent.inode = inode.number ∧ extent.logical ≤ logical ∧
      logical - extent.logical < extent.length then
    pure (some (seenFrom logical extent.logical extent.length extent.physical))
  else do
    touch [⟨.iBlock, 0, 8⟩]
    match nodeDepth inode.block iBlockBytes with
    | none => pure none
    | some depth => descend inode.number logical depth inode.block .iBlock logicalLimit

/-- The loop of `map_indirect` that finds the level of a block behind the direct ones: the level,
the blocks that it spans and the number of the block in it; `none` when there is no such level. -/
def levelLoop (perBlock : ℕ) : ℕ → ℕ → ℕ → ℕ → Option (ℕ × ℕ × ℕ)
  | 0, _, _, _ => none
  | left + 1, levels, span, logical =>
    if logical < span then some (levels, span, logical)
    else levelLoop perBlock left (levels + 1) (span * perBlock) (logical - span)

/-- The pointer at `index` of an indirect block. -/
def pointer (table index : ℕ) : Driver (Option ℕ) := do
  let l := (← get).layout
  if table = 0 then pure (some 0)
  else if l.blocksCount ≤ table then pure none
  else
    match ← fetch (table * l.blockBytes + index * 4) 4 with
    | .error _ => pure none
    | .ok bytes => pure (some (bytes.nat 0 4))

/-- The loop of `map_indirect` that goes down the levels. -/
def pointerLoop (perBlock : ℕ) : ℕ → ℕ → ℕ → ℕ → Driver (Option ℕ)
  | 0, _, _, value => pure (some value)
  | levels + 1, span, logical, value => do
    let span := span / perBlock
    match ← pointer value (logical / span) with
    | none => pure none
    | some value => pointerLoop perBlock levels span (logical % span) value

abbrev directBlocks : ℕ := 12

/-- A block of the volume, as `map_indirect` ends. -/
def inVolume (l : Layout) (value : Option ℕ) : Option ℕ :=
  value.filter fun value => value < l.blocksCount

/-- `map_indirect`. -/
def mapIndirect (inode : Inode) (logical : ℕ) : Driver (Option ℕ) := do
  let l := (← get).layout
  let perBlock := l.blockBytes / 4
  if logical < directBlocks then do
    touch [⟨.iBlock, 4 * logical, 4⟩]
    pure (inVolume l (some (inode.block.nat (4 * logical) 4)))
  else
    match levelLoop perBlock 3 1 perBlock (logical - directBlocks) with
    | none => pure (some 0)
    | some (levels, span, logical) => do
      touch [⟨.iBlock, 4 * (directBlocks - 1 + levels), 4⟩]
      let value ← pointerLoop perBlock levels span logical
        (inode.block.nat (4 * (directBlocks - 1 + levels)) 4)
      pure (inVolume l value)

/-- `map_block`: the block that a logical block is in, or zero, and how many blocks from it on are
in the same situation. -/
def mapBlock (inode : Inode) (logical : ℕ) : Driver (Option (ℕ × ℕ)) :=
  if logicalLimit ≤ logical then pure (some (0, 1))
  else if has inode.flags inodeFlagExtents then mapExtent inode logical
  else do
    let physical ← mapIndirect inode logical
    pure (physical.map fun physical => (physical, 1))

/-! ## The bytes of a file -/

/-- The loop of `read_inode` with the bytes read so far, which are `done`. -/
def readInodeLoop (inode : Inode) (offset length : ℕ) : ℕ → ℕ → Bytes → Driver (Result × Bytes)
  | 0, done, out => pure (⟨done, .none⟩, out)
  | fuel + 1, done, out =>
    if done < length then do
      let l := (← get).layout
      let position := offset + done
      let within := position % l.blockBytes
      match ← mapBlock inode (position / l.blockBytes) with
      | none => pure (⟨done, .deviceError⟩, out)
      | some (physical, run) =>
        let available := run * l.blockBytes - within
        let take := if available < length - done then available else length - done
        if physical = 0 then
          readInodeLoop inode offset length fuel (done + take) (out.splice done take fun _ => 0)
        else
          match ← fetch (physical * l.blockBytes + within) take with
          | .error short =>
            pure (⟨done + short.transferred, short.error⟩,
              out.splice done short.transferred short.data)
          | .ok data =>
            readInodeLoop inode offset length fuel (done + take) (out.splice done take data)
    else pure (⟨done, .none⟩, out)

/-- `read_inode`; every round of the loop reads at least one byte. -/
def readInode (inode : Inode) (offset length : ℕ) : Driver (Result × Bytes) :=
  if inode.size ≤ offset then pure (⟨0, .none⟩, fun _ => 0)
  else
    let length := if inode.size - offset < length then inode.size - offset else length
    if inode.fastSymlink then do
      touch [⟨.iBlock, offset, length⟩]
      pure (⟨length, .none⟩, (inode.block.slice offset).trim length)
    else readInodeLoop inode offset length length 0 fun _ => 0

/-! ## Directories -/

/-- `Entry`. -/
structure Entry where
  inode : ℕ
  name : List UInt8
deriving DecidableEq, Repr

/-- One round of the loop of `next_entry`: the scan ends, goes on elsewhere, or has an entry. -/
inductive ScanStep
  | stop
  | skip (position : ℕ)
  | entry (entry : Entry) (position : ℕ)
deriving DecidableEq, Repr

/-- The record at a position of the directory block in the shared buffer. -/
def scanRecord (position : ℕ) : Driver ScanStep := do
  let v ← get
  let within := position % v.layout.blockBytes
  if v.layout.blockBytes < within + 8 then pure .stop
  else do
    touch [⟨.block, within, 8⟩]
    match decodeRecord v.layout v.block within with
    | none => pure .stop
    | some r => do
      let next := (position + r.record) % 2 ^ 64
      touch [⟨.block, within + 8, r.name.length⟩]
      if r.isEntry v.layout then do
        touch [⟨.name, 0, r.name.length + 1⟩]
        pure (.entry ⟨r.inode, r.name⟩ next)
      else pure (.skip next)

/-- One round of the loop of `next_entry`. -/
def scanStep (directory : Inode) (position : ℕ) : Driver ScanStep := do
  let v ← get
  let logical := position / v.layout.blockBytes
  if v.loaded.inode ≠ directory.number ∨ v.loaded.logical ≠ logical then
    match ← mapBlock directory logical with
    | none => pure .stop
    | some (physical, _) =>
      -- a hole holds no entries
      if physical = 0 then pure (.skip ((logical + 1) * v.layout.blockBytes % 2 ^ 64))
      else do
        if ← fillBlock physical then do
          modify fun v => { v with loaded := ⟨directory.number, logical⟩ }
          scanRecord position
        else pure .stop
  else scanRecord position

/-- A change of the position of a scan is noted. -/
def move (position next : ℕ) : Driver Unit :=
  modify fun v => { v with moves := (position, next) :: v.moves }

/-- The loop of `next_entry`. -/
def nextEntryLoop (directory : Inode) : ℕ → ℕ → Driver (Option (Option (Entry × ℕ)))
  | 0, _ => pure none
  | fuel + 1, position =>
    if position < directory.size then do
      match ← scanStep directory position with
      | .stop => pure (some none)
      | .skip next => do
        move position next
        nextEntryLoop directory fuel next
      | .entry entry next => do
        move position next
        pure (some (some (entry, next)))
    else pure (some none)

/-- `next_entry`: the entry and the position behind it. -/
def nextEntry (directory : Inode) (fuel position : ℕ) :
    Driver (Option (Option (Entry × ℕ))) :=
  if has directory.flags inodeFlagEncrypt then pure (some none)
  else nextEntryLoop directory fuel position

/-- `to_node`. -/
def toNode (inode : Inode) (entry : Entry) : Option Vfs.Entry :=
  if !inode.directory && !inode.regular && !inode.symlink then none
  else
    (Text.copy 256 entry.name).map fun name =>
      { id := inode.number
        type := if inode.directory then .directory else .file
        size := inode.size
        name }

/-- `decode`. -/
def decode (node : Vfs.Node ℕ) : Driver (Option Inode) := do
  let v ← get
  if node.filesystem ≠ v.self ∨ node.id = 0 ∨ v.layout.inodesCount < node.id then pure none
  else loadInode node.id

/-- The node of an entry, when it can be opened. -/
def openEntry (entry : Entry) : Driver (Option Vfs.Entry) := do
  let inode ← loadInode entry.inode
  pure (inode.bind fun inode => toNode inode entry)

/-- The loop of `lookup`. -/
def lookupLoop (directory : Inode) (name : List UInt8) (fuel : ℕ) :
    ℕ → ℕ → Driver (Option (Option Vfs.Entry))
  | 0, _ => pure none
  | rounds + 1, position => do
    match ← nextEntry directory fuel position with
    | none => pure none
    | some none => pure (some none)
    | some (some (entry, next)) =>
      if entry.name ≠ name then lookupLoop directory name fuel rounds next
      else do
        let node ← openEntry entry
        pure (some node)

/-- `lookup`. -/
def lookup (fuel : ℕ) (directory : Vfs.Node ℕ) (name : List UInt8) :
    Driver (Option (Option Vfs.Entry)) := do
  match ← decode directory with
  | none => pure (some none)
  | some parent =>
    if !parent.directory then pure (some none)
    else if name.length = 0 ∨ 255 < name.length then pure (some none)
    else lookupLoop parent name fuel fuel 0

/-- The loop of `list`: `index` entries that can be opened have been passed. -/
def listLoop (directory : Inode) (target : ℕ) (fuel : ℕ) :
    ℕ → ℕ → ℕ → Driver (Option (Option Vfs.Entry))
  | 0, _, _ => pure none
  | rounds + 1, index, position => do
    match ← nextEntry directory fuel position with
    | none => pure none
    | some none => pure (some none)
    | some (some (entry, next)) =>
      match ← openEntry entry with
      | none => listLoop directory target fuel rounds index next
      | some node =>
        if index = target then do
          modify fun v => { v with listing := ⟨directory.number, index + 1, next⟩ }
          pure (some (some node))
        else listLoop directory target fuel rounds (index + 1) next

/-- `list`. -/
def list (fuel : ℕ) (directory : Vfs.Node ℕ) (target : ℕ) :
    Driver (Option (Option Vfs.Entry)) := do
  match ← decode directory with
  | none => pure (some none)
  | some parent => do
    let listing := (← get).listing
    if !parent.directory then pure (some none)
    else if listing.inode = parent.number ∧ listing.index ≤ target then
      listLoop parent target fuel fuel listing.index listing.position
    else listLoop parent target fuel fuel 0 0

/-- `read`. -/
def read (file : Vfs.Node ℕ) (offset length : ℕ) (buffer : Bool) : Driver (Result × Bytes) := do
  match ← decode file with
  | none => pure (⟨0, .invalidArgument⟩, fun _ => 0)
  | some inode =>
    if inode.directory then pure (⟨0, .invalidArgument⟩, fun _ => 0)
    else if length ≠ 0 ∧ !buffer then pure (⟨0, .invalidArgument⟩, fun _ => 0)
    else if !inode.regular && !inode.symlink then pure (⟨0, .unsupported⟩, fun _ => 0)
    else if has inode.flags inodeFlagEncrypt then pure (⟨0, .unsupported⟩, fun _ => 0)
    else readInode inode offset length

/-! ## Calls -/

/-- A call on a mounted volume. -/
inductive Call
  | lookup (directory : Vfs.Node ℕ) (name : List UInt8)
  | list (directory : Vfs.Node ℕ) (position : ℕ)
  | read (file : Vfs.Node ℕ) (offset length : ℕ) (buffer : Bool)

/-- What a call returns. -/
inductive Outcome
  | node (node : Option Vfs.Entry)
  | data (result : Result) (bytes : Bytes)

/-- A call; `none` when the rounds are not enough. -/
def call (fuel : ℕ) : Call → Driver (Option Outcome)
  | .lookup directory name => do
    let node ← lookup fuel directory name
    pure (node.map .node)
  | .list directory position => do
    let node ← list fuel directory position
    pure (node.map .node)
  | .read file offset length buffer => do
    let (result, bytes) ← read file offset length buffer
    pure (some (.data result bytes))

end ShirleysOS.Ext4
