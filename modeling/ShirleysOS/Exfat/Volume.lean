import ShirleysOS.Exfat.Format
import ShirleysOS.Lib.BlockIo
import ShirleysOS.Vfs.Mounts

/-!
# Reading an exFAT volume

The driver's state and everything it reads: bytes, the FAT, streams of clusters, directory
entries and nodes. What `mount` finds out once and for all is a `Volume`; what changes while it
is mounted (the root directory's stream, where the search for a free cluster starts, and where
the last walk along the FAT ended) is a `State`. Source: `kernel/fs/exfat.cpp`.
-/

namespace ShirleysOS.Exfat

open Lib Storage

/-- The fields that `mount` sets and nothing changes afterwards. `self` stands for the object's
address, by which nodes name their file system. -/
structure Volume where
  self : ℕ
  device : Medium Error
  fatOffset : ℕ
  heapOffset : ℕ
  clusterCount : ℕ
  clusterShift : ℕ
  bitmap : Stream
  upcase : UInt16 → UInt16
  volumeFlags : ℕ
  dirty : Bool
  writable : Bool

/-- `cursor_`: the walk of a chained stream's clusters that `cluster_at` made last. -/
structure Cursor where
  firstCluster : ℕ
  index : ℕ
  cluster : ℕ
deriving DecidableEq, Repr

def Cursor.none : Cursor := ⟨0, 0, 0⟩

/-- The fields that change while the volume is mounted. -/
structure State where
  root : Stream
  allocationHint : ℕ
  cursor : Cursor
deriving DecidableEq, Repr

/-- The driver's programs. -/
abbrev Driver : Type → Type := StateT State (Io Error)

/-- `vfs::Node`; file systems are known by their addresses. -/
abbrev Node : Type := Vfs.Node ℕ

/-- `Location`: where a node lives, the directory that holds it and its own entry set. -/
structure Location where
  parent : Stream
  entry : Entry
  root : Bool

/-- `cluster_size`. -/
def Volume.clusterBytes (g : Volume) : ℕ := 2 ^ g.clusterShift

section

variable (g : Volume)

/-! ## Bytes -/

/-- The loop of `read_bytes`: `done` bytes are in `out`. An aligned stretch of whole blocks is
read at once, anything else block by block through the bounce buffer. -/
def readBytesLoop (offset length : ℕ) : ℕ → ℕ → Bytes → Driver (Result × Bytes)
  | 0, done, out => pure (⟨done, .none⟩, out)
  | fuel + 1, done, out =>
    if done < length then
      let block := g.device.blockSize
      let index := (offset + done) / block
      let within := (offset + done) % block
      let remaining := length - done
      if within = 0 ∧ block ≤ remaining then do
        let count := remaining / block
        match ← readBlocks index count with
        | .error e => pure (⟨done, e⟩, out)
        | .ok data =>
          readBytesLoop offset length fuel (done + count * block)
            (out.splice done (count * block) data)
      else do
        match ← readBlocks index 1 with
        | .error e => pure (⟨done, e⟩, out)
        | .ok bounce =>
          let take := min (block - within) remaining
          readBytesLoop offset length fuel (done + take)
            (out.splice done take (bounce.slice within))
    else pure (⟨done, .none⟩, out)

/-- `read_bytes`; every round reads at least one byte. -/
def readBytes (offset length : ℕ) : Driver (Result × Bytes) :=
  readBytesLoop g offset length length 0 fun _ => 0

/-! ## The FAT and streams -/

/-- `fat_next`. -/
def fatNext (cluster : ℕ) : Driver (Option ℕ) :=
  if cluster < firstDataCluster ∨ g.clusterCount + 1 < cluster then pure none
  else do
    let (result, value) ← readBytes g (g.fatOffset + cluster * 4) 4
    if result.ok then pure (some (le32 value 0)) else pure none

/-- The loop of `cluster_at`: `n` more steps along the FAT. -/
def fatWalk : ℕ → ℕ → Driver (Option ℕ)
  | 0, current => pure (some current)
  | n + 1, current => do
    match ← fatNext g current with
    | none => pure none
    | some next =>
      if next < firstDataCluster ∨ g.clusterCount + 1 < next then pure none
      else fatWalk n next

/-- `cluster_at`. -/
def clusterAt (stream : Stream) (index : ℕ) : Driver (Option ℕ) :=
  let last := g.clusterCount + 1
  if stream.firstCluster < firstDataCluster ∨ last < stream.firstCluster ∨
      g.clusterCount ≤ index then pure none
  else if stream.contiguous then
    if last < stream.firstCluster + index then pure none
    else pure (some (stream.firstCluster + index))
  else do
    let cursor := (← get).cursor
    let start :=
      if cursor.firstCluster = stream.firstCluster ∧ cursor.index ≤ index then
        (cursor.cluster, cursor.index)
      else (stream.firstCluster, 0)
    match ← fatWalk g (index - start.2) start.1 with
    | none => pure none
    | some current =>
      modify fun s => { s with cursor := ⟨stream.firstCluster, index, current⟩ }
      pure (some current)

/-- Where a cluster's bytes are. -/
def Volume.position (g : Volume) (cluster : ℕ) : ℕ :=
  g.heapOffset + (cluster - firstDataCluster) * g.clusterBytes

/-- The loop of `read_stream`: cluster by cluster. -/
def readStreamLoop (stream : Stream) (offset length : ℕ) :
    ℕ → ℕ → Bytes → Driver (Result × Bytes)
  | 0, done, out => pure (⟨done, .none⟩, out)
  | fuel + 1, done, out =>
    if done < length then do
      let within := (offset + done) % g.clusterBytes
      let take := min (g.clusterBytes - within) (length - done)
      match ← clusterAt g stream ((offset + done) / g.clusterBytes) with
      | none => pure (⟨done, .deviceError⟩, out)
      | some cluster =>
        let (result, bytes) ← readBytes g (g.position cluster + within) take
        if result.ok then
          readStreamLoop stream offset length fuel (done + take) (out.splice done take bytes)
        else pure (⟨done, result.error⟩, out)
    else pure (⟨done, .none⟩, out)

/-- `read_stream`: up to the stream's length. -/
def readStream (stream : Stream) (offset length : ℕ) : Driver (Result × Bytes) :=
  if stream.length ≤ offset then pure (⟨0, .none⟩, fun _ => 0)
  else
    let length := min length (stream.length - offset)
    readStreamLoop g stream offset length length 0 fun _ => 0

/-! ## Directories -/

/-- `valid_name`: legal, and with the hash that `find` compares first. -/
def validName (entry : Entry) : Bool :=
  legalName entry.name && (nameHash g.upcase entry.name).toNat == entry.nameHash

/-- The end of `next_entry`: length and clusters have to make sense. -/
def validStream (content : Stream) : Bool :=
  !(content.length < content.validLength ||
      g.clusterCount * g.clusterBytes < content.length) &&
    (content.length == 0 ||
      !(content.firstCluster < firstDataCluster || g.clusterCount + 1 < content.firstCluster)) &&
    !(content.contiguous && content.length != 0 &&
      g.clusterCount < content.firstCluster - firstDataCluster +
        (content.length + g.clusterBytes - 1) / g.clusterBytes)

/-- `next_entry` from a slot on: the next set that is complete, with the slot after it. Deleted
entries, other primary entries and damaged sets are skipped entry by entry; a sound set with a
bad name or a senseless stream is skipped as a whole. -/
def nextEntryLoop (directory : Stream) : ℕ → ℕ → Driver (Option (Entry × ℕ))
  | 0, _ => pure none
  | fuel + 1, slot =>
    if slot ≤ maxSlot ∧ slot * entryBytes < directory.length then do
      let (read, set) ← readStream g directory (slot * entryBytes) entryBytes
      if read.transferred ≠ entryBytes then pure none
      else if set 0 = typeEnd then pure none
      else if set 0 ≠ typeFile then nextEntryLoop directory fuel (slot + 1)
      else
        let secondaries := (set 1).toNat
        let setBytes := (secondaries + 1) * entryBytes
        if secondaries < 2 ∨ maxSetEntries - 1 < secondaries then
          nextEntryLoop directory fuel (slot + 1)
        else do
          let (read, set) ← readStream g directory (slot * entryBytes) setBytes
          if read.transferred ≠ setBytes then nextEntryLoop directory fuel (slot + 1)
          else if setValid set secondaries = false then nextEntryLoop directory fuel (slot + 1)
          else
            let entry := entryOfSet set slot
            if validName g entry && validStream g entry.stream then
              pure (some (entry, slot + secondaries + 1))
            else nextEntryLoop directory fuel (slot + secondaries + 1)
    else pure none

/-- `next_entry`; no round goes beyond the last slot that a node can name. -/
def nextEntry (directory : Stream) (slot : ℕ) : Driver (Option (Entry × ℕ)) :=
  nextEntryLoop g directory (maxSlot + 1) slot

/-- Whether a set has the wanted name: the hash is compared first. -/
def sameName (wanted : List UInt16) (entry : Entry) : Bool :=
  entry.name.length == wanted.length &&
    entry.nameHash == (nameHash g.upcase wanted).toNat &&
    entry.name.map g.upcase == wanted.map g.upcase

/-- The loop of `find`. -/
def findLoop (directory : Stream) (wanted : List UInt16) : ℕ → ℕ → Driver (Option Entry)
  | 0, _ => pure none
  | fuel + 1, slot => do
    match ← nextEntry g directory slot with
    | none => pure none
    | some (entry, next) =>
      if sameName g wanted entry then pure (some entry)
      else findLoop directory wanted fuel next

/-- `find`: names compare without regard to case. -/
def find (directory : Stream) (name : List UInt8) : Driver (Option Entry) :=
  match Text.utf8ToUtf16 name 255 with
  | none => pure none
  | some wanted =>
    if wanted.length = 0 then pure none else findLoop g directory wanted (maxSlot + 1) 0

/-! ## Nodes -/

/-- The parent directory that an identifier names. It is just long enough for the largest set. -/
def parentOfId (id : ℕ) : Stream :=
  let slot := id / 2 ^ 32 % 2 ^ 23
  let length := (slot + maxSetEntries) * entryBytes
  ⟨id % 2 ^ 32, length, length, id / 2 ^ 55 % 2 = 1⟩

/-- `locate`. -/
def locate (node : Node) : Driver (Option Location) :=
  if node.filesystem ≠ g.self then pure none
  else if node.id = rootId then do
    let root := (← get).root
    pure (some ⟨Stream.empty, ⟨root, attributeDirectory, 0, [], 0⟩, true⟩)
  else do
    let slot := node.id / 2 ^ 32 % 2 ^ 23
    match ← nextEntry g (parentOfId node.id) slot with
    | some (entry, _) =>
      if entry.slot = slot then pure (some ⟨parentOfId node.id, entry, false⟩) else pure none
    | none => pure none

/-- `decode`: the stream of a node, and whether it is a directory. -/
def decode (node : Node) : Driver (Option (Stream × Bool)) := do
  match ← locate g node with
  | none => pure none
  | some place => pure (some (place.entry.stream, place.entry.directory))

/-- `to_node`: the node of an entry. -/
def toNode (parent : Stream) (entry : Entry) : Option Node :=
  if maxSlot < entry.slot then none
  else
    match Text.utf16ToUtf8 entry.name (Vfs.maxNameLength + 1) with
    | none => none
    | some name =>
      some
        { filesystem := g.self
          id := encodeId parent entry.slot
          type := if entry.directory then .directory else .file
          size := entry.stream.length
          name
          path := [] }

/-- `root`. -/
def rootNode : Driver Node := do
  pure ⟨⟨rootId, .directory, (← get).root.length, []⟩, g.self, []⟩

/-- `lookup`. -/
def lookup (directory : Node) (name : List UInt8) : Driver (Option Node) := do
  match ← decode g directory with
  | none => pure none
  | some (stream, isDirectory) =>
    if isDirectory = false then pure none
    else
      match ← find g stream name with
      | none => pure none
      | some entry => pure (toNode g stream entry)

/-- The loop of `list`: an entry without a name in the kernel's spelling is not counted. -/
def listLoop (stream : Stream) : ℕ → ℕ → ℕ → Driver (Option Node)
  | 0, _, _ => pure none
  | fuel + 1, position, slot => do
    match ← nextEntry g stream slot with
    | none => pure none
    | some (entry, next) =>
      match toNode g stream entry, position with
      | none, _ => listLoop stream fuel position next
      | some child, 0 => pure (some child)
      | some _, position + 1 => listLoop stream fuel position next

/-- `list`. -/
def list (directory : Node) (position : ℕ) : Driver (Option Node) := do
  match ← decode g directory with
  | none => pure none
  | some (stream, isDirectory) =>
    if isDirectory = false then pure none else listLoop g stream (maxSlot + 1) position 0

/-- `read`: bytes past the valid length read as zeros. -/
def read (file : Node) (offset length : ℕ) : Driver (Result × Bytes) := do
  match ← decode g file with
  | none => pure (⟨0, .invalidArgument⟩, fun _ => 0)
  | some (stream, isDirectory) =>
    if isDirectory then pure (⟨0, .invalidArgument⟩, fun _ => 0)
    else if stream.length ≤ offset then pure (⟨0, .none⟩, fun _ => 0)
    else
      let length := min length (stream.length - offset)
      if offset < stream.validLength then do
        let stored := min (stream.validLength - offset) length
        let (result, bytes) ← readStream g stream offset stored
        if result.ok then pure (⟨length, .none⟩, bytes.trim stored) else pure (result, bytes)
      else pure (⟨length, .none⟩, fun _ => 0)

end

end ShirleysOS.Exfat
